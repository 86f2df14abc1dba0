import Lios.Io.Output
import Lios.Lib.Numerals

/-! # What is printed

A format is a row of pieces, each of which consumes its arguments and stands for a text. The call
prints the texts in order, whatever the destination does with them, and returns their length modulo
2^32. For a number the text is its numeral in the base 10 or 16.
-/
namespace Lios.Output
variable {S : Type} {mem : U64 → U8} {p : U64}

/-- The bytes from `p` on. -/
def HoldsAt (mem : U64 → U8) (p : U64) : List U8 → Prop
  | [] => True
  | c :: text => mem p = c ∧ HoldsAt mem (p + 1#64) text

def digitByte (d : ℕ) : U8 := ascii ("0123456789ABCDEF".toList.getD d '0')

inductive Piece where
  | char (c : U8)
  | percent
  | unsigned (n : U64)
  | hex (n : U64)
  | character (w : U64)
  | string (str : U64) (text : List U8)

namespace Piece

def format : Piece → List U8
  | char c => [c]
  | percent => [ascii '%',ascii '%']
  | unsigned _ => [ascii '%',ascii 'u']
  | hex _ => [ascii '%',ascii 'x']
  | character _ => [ascii '%',ascii 'c']
  | string _ _ => [ascii '%',ascii 's']

def args : Piece → List U64
  | char _ => []
  | percent => []
  | unsigned n => [n]
  | hex n => [n]
  | character w => [w]
  | string str _ => [str]

def text : Piece → List U8
  | char c => [c]
  | percent => [ascii '%']
  | unsigned n => (numeral 10 n.toNat).map digitByte
  | hex n => (numeral 16 n.toNat).map digitByte
  | character w => [w.setWidth 8]
  | string _ text => text

/-- An ordinary character is neither the end of the format nor the mark of a directive, and a string
is in memory up to its first zero. -/
def Fits (mem : U64 → U8) : Piece → Prop
  | char c => c ≠ 0#8 ∧ c ≠ ascii '%'
  | percent => True
  | unsigned _ => True
  | hex _ => True
  | character _ => True
  | string str text => HoldsAt mem str (text ++ [0#8]) ∧ ∀ c ∈ text, c ≠ 0#8

end Piece

/-- The characters are put out one by one, and counted. -/
def emit (put : U8 → S → Outcome S Unit) (text : List U8) (length : U32) (s : S) : Outcome S U32 :=
  (Outcome.forEach put text s).bind fun _ s => .done (length + BitVec.ofNat 32 text.length) s

section Emit
variable (put : U8 → S → Outcome S Unit)

theorem emit_nil (length : U32) (s : S) : emit put [] length s = .done length s := by
  rw [emit,Outcome.forEach,Outcome.bind_done,List.length_nil,BitVec.add_zero]

theorem emit_cons (c : U8) (text : List U8) (length : U32) (s : S) :
    emit put (c :: text) length s = (put c s).bind fun _ s => emit put text (length + 1#32) s := by
  simp only [emit,Outcome.forEach,Outcome.bind_assoc,List.length_cons,Nat.add_comm _ 1,
    BitVec.ofNat_add,BitVec.add_assoc]

theorem emit_append (text text' : List U8) (length : U32) (s : S) :
    emit put (text ++ text') length s =
      (emit put text length s).bind fun length s => emit put text' length s := by
  induction text generalizing length s with
  | nil => rw [List.nil_append,emit_nil,Outcome.bind_done]
  | cons c text ih => simp only [List.cons_append,emit_cons,Outcome.bind_assoc,ih]

end Emit

section Numbers
variable (calls : OutputCalls S) (dest : Destination) {b : ℕ} {powers : List U64} {digit : U64 → U8}

/-- The loop over the powers. -/
theorem printDigits_eq {i : ℕ} (hpow : ∀ j < i, (powers.getD j 0#64).toNat = b ^ j)
    (hdigit : ∀ d : U64, d.toNat < b → digit d = digitByte d.toNat) (hb : 0 < b)
    {num : U64} (hnum : num.toNat < b ^ i) (printed : Bool) (length : U32) (s : S) :
    printDigits calls dest powers digit i printed num length s =
      emit (putchar calls dest) ((descend b i printed num.toNat).map digitByte) length s := by
  induction i generalizing num printed length s with
  | zero => rw [printDigits,descend,List.map_nil,emit_nil]
  | succ i ih =>
    have hpower : (powers.getD i 0#64).toNat = b ^ i := hpow i (Nat.lt_succ_self i)
    have hpos : 0 < b ^ i := Nat.pow_pos hb
    have hdiv : (num / powers.getD i 0#64).toNat = num.toNat / b ^ i := by
      rw [BitVec.toNat_udiv,hpower]
    have hih := fun num h => @ih (fun j hj => hpow j (Nat.lt_succ_of_lt hj)) num h
    rw [printDigits,descend]
    -- The remainder is only taken behind a digit that is not zero; otherwise it is the number itself.
    by_cases hzero : num.toNat / b ^ i = 0
    · have hlt := (Nat.div_eq_zero_iff_lt hpos).mp hzero
      have hzero' : num / powers.getD i 0#64 = 0#64 := BitVec.eq_of_toNat_eq (hdiv.trans hzero)
      rw [if_pos hzero,if_pos hzero']
      cases printed with
      | true =>
        rw [if_pos rfl,if_pos rfl,List.map_cons,emit_cons]
        simp only [hih num hlt]
        rfl
      | false => exact hih num hlt false length s
    · have hzero' : num / powers.getD i 0#64 ≠ 0#64 := by
        intro h
        rw [h] at hdiv
        exact hzero hdiv.symm
      have hmod : (num % powers.getD i 0#64).toNat = num.toNat % b ^ i := by
        rw [BitVec.toNat_umod,hpower]
      have hlt : num.toNat / b ^ i < b := by
        rw [Nat.div_lt_iff_lt_mul hpos,mul_comm,← pow_succ]
        exact hnum
      rw [if_neg hzero,if_neg hzero',List.map_cons,emit_cons,hdigit _ (hdiv ▸ hlt),hdiv]
      simp only [hih _ (hmod ▸ Nat.mod_lt _ hpos),hmod]

theorem printNumber_eq {digits : ℕ} (hpow : ∀ j < digits, (powers.getD j 0#64).toNat = b ^ j)
    (hdigit : ∀ d : U64, d.toNat < b → digit d = digitByte d.toNat) (hb : 1 < b)
    (hlarge : ∀ num : U64, num.toNat < b ^ digits) (num : U64) (length : U32) (s : S) :
    printNumber calls dest powers digit digits num length s =
      emit (putchar calls dest) ((numeral b num.toNat).map digitByte) length s := by
  rw [printNumber]
  by_cases hzero : num = 0#64
  · have hnumeral : numeral b num.toNat = [0] := by
      rw [hzero]
      rfl
    rw [if_pos hzero,hnumeral,List.map_singleton,emit_cons]
    simp only [emit_nil]
    rfl
  · have hne : num.toNat ≠ 0 := fun h => hzero (BitVec.eq_of_toNat_eq h)
    rw [if_neg hzero,printDigits_eq calls dest hpow hdigit (by omega) (hlarge num),
      descend_eq_numeral hb (hlarge num) hne]

theorem digit_of_fin (h : ∀ k : Fin b, digit (BitVec.ofNat 64 k) = digitByte k) (d : U64)
    (hd : d.toNat < b) : digit d = digitByte d.toNat := by
  have hk := h ⟨d.toNat,hd⟩
  rw [BitVec.ofNat_toNat,BitVec.setWidth_eq] at hk
  exact hk

theorem printUnsigned_eq (n : U64) (length : U32) (s : S) :
    printUnsigned calls dest n length s =
      emit (putchar calls dest) (Piece.unsigned n).text length s := by
  apply printNumber_eq
  · decide
  · exact digit_of_fin (by decide)
  · decide
  · intro num
    have hlt := num.isLt
    rw [u64MaxLengthDec]
    omega

theorem printHex_eq (n : U64) (length : U32) (s : S) :
    printHex calls dest n length s = emit (putchar calls dest) (Piece.hex n).text length s := by
  apply printNumber_eq
  · decide
  · exact digit_of_fin (by decide)
  · decide
  · intro num
    have hlt := num.isLt
    rw [u32MaxLengthHex]
    omega

end Numbers

section Format
variable (calls : OutputCalls S) (dest : Destination) {fuel : ℕ}

theorem printString_eq {text : List U8} (hmem : HoldsAt mem p (text ++ [0#8]))
    (htext : ∀ c ∈ text, c ≠ 0#8) (hfuel : text.length < fuel) (length : U32) (s : S) :
    printString calls dest mem fuel p length s = emit (putchar calls dest) text length s := by
  induction text generalizing p fuel length s with
  | nil =>
    obtain ⟨fuel,rfl⟩ : ∃ f, fuel = f + 1 := ⟨fuel - 1,by omega⟩
    rw [printString,if_pos hmem.1,emit_nil]
  | cons c text ih =>
    obtain ⟨fuel,rfl⟩ : ∃ f, fuel = f + 1 := ⟨fuel - 1,by omega⟩
    obtain ⟨rfl,hrest⟩ := hmem
    have hlen : text.length < fuel := by
      rw [List.length_cons] at hfuel
      omega
    rw [printString,if_neg (htext _ List.mem_cons_self),emit_cons]
    simp only [ih hrest (fun c hc => htext c (List.mem_cons_of_mem _ hc)) hlen]

theorem emit_singleton (put : U8 → S → Outcome S Unit) (c : U8) (length : U32) (s : S) :
    emit put [c] length s = (put c s).bind fun _ s => .done (length + 1#32) s := by
  simp only [emit_cons,emit_nil]

theorem printDirective_eq {piece : Piece} {d : U8} (hformat : piece.format = [ascii '%',d])
    (hfits : piece.Fits mem) (hfuel : piece.text.length < fuel) (args : List U64) (length : U32)
    (s : S) : printDirective calls dest mem fuel d (piece.args ++ args) length s =
      (emit (putchar calls dest) piece.text length s).bind fun length s => .done (args,length) s := by
  have hd : d = piece.format.getD 1 0#8 := by rw [hformat]; rfl
  subst hd
  cases piece with
  | char c => cases hformat
  | percent =>
    rw [Piece.text,emit_singleton,Outcome.bind_assoc]
    rfl
  | unsigned n =>
    rw [← printUnsigned_eq]
    rfl
  | hex n =>
    rw [← printHex_eq]
    rfl
  | character w =>
    rw [Piece.text,emit_singleton,Outcome.bind_assoc]
    rfl
  | string str text =>
    rw [Piece.text,← printString_eq calls dest hfits.1 hfits.2 hfuel]
    rfl

theorem Piece.format_eq (piece : Piece) :
    (∃ c, piece = .char c) ∨ ∃ d, piece.format = [ascii '%',d] := by
  cases piece with
  | char c => exact .inl ⟨c,rfl⟩
  | percent => exact .inr ⟨_,rfl⟩
  | unsigned n => exact .inr ⟨_,rfl⟩
  | hex n => exact .inr ⟨_,rfl⟩
  | character w => exact .inr ⟨_,rfl⟩
  | string str text => exact .inr ⟨_,rfl⟩

/-- One round of the loop over the format. -/
theorem printFormat_piece {piece : Piece} (hfits : piece.Fits mem) {rest : List U8}
    (hmem : HoldsAt mem p (piece.format ++ rest)) (hfuel : piece.text.length < fuel) :
    ∃ q, HoldsAt mem q rest ∧ ∀ args length s,
      printFormat calls dest mem (fuel + 1) p (piece.args ++ args) length s =
        (emit (putchar calls dest) piece.text length s).bind fun length s =>
        printFormat calls dest mem fuel q args length s := by
  obtain ⟨c,rfl⟩ | ⟨d,hformat⟩ := piece.format_eq
  · obtain ⟨rfl,hrest⟩ := hmem
    refine ⟨_,hrest,fun args length s => ?_⟩
    rw [printFormat,if_neg hfits.1,if_neg hfits.2,Piece.text,emit_singleton,Outcome.bind_assoc]
    rfl
  · rw [hformat] at hmem
    obtain ⟨hmark,hd,hrest⟩ := hmem
    have hnext : p + 1#64 + 1#64 = p + 2#64 := BitVec.add_assoc p 1#64 1#64
    refine ⟨p + 2#64,hnext ▸ hrest,fun args length s => ?_⟩
    rw [printFormat,hmark,if_neg (by decide),if_pos rfl,hd,
      printDirective_eq calls dest hformat hfits hfuel,Outcome.bind_assoc]
    rfl

/-- The loop over the format. -/
theorem printFormat_eq {pieces : List Piece} (hfits : ∀ piece ∈ pieces, piece.Fits mem)
    (hmem : HoldsAt mem p (pieces.flatMap Piece.format ++ [0#8]))
    (hfuel : (pieces.map fun piece => piece.text.length + 1).sum < fuel) (rest : List U64)
    (length : U32) (s : S) :
    printFormat calls dest mem fuel p (pieces.flatMap Piece.args ++ rest) length s =
      emit (putchar calls dest) (pieces.flatMap Piece.text) length s := by
  induction pieces generalizing p fuel length s with
  | nil =>
    obtain ⟨fuel,rfl⟩ : ∃ f, fuel = f + 1 := ⟨fuel - 1,by omega⟩
    rw [printFormat,if_pos hmem.1,List.flatMap_nil,emit_nil]
  | cons piece pieces ih =>
    obtain ⟨fuel,rfl⟩ : ∃ f, fuel = f + 1 := ⟨fuel - 1,by omega⟩
    rw [List.map_cons,List.sum_cons] at hfuel
    rw [List.flatMap_cons,List.append_assoc] at hmem
    have hlen : piece.text.length < fuel := by omega
    obtain ⟨q,hq,hround⟩ := printFormat_piece calls dest (hfits piece List.mem_cons_self) hmem hlen
    rw [List.flatMap_cons,List.flatMap_cons,List.append_assoc,hround,emit_append]
    congr 1
    funext length t
    exact ih (fun piece hp => hfits piece (List.mem_cons_of_mem _ hp)) hq (by omega) length t

theorem printf_eq {pieces : List Piece} (hfits : ∀ piece ∈ pieces, piece.Fits mem)
    (hmem : HoldsAt mem p (pieces.flatMap Piece.format ++ [0#8]))
    (hfuel : (pieces.map fun piece => piece.text.length + 1).sum < fuel) (rest : List U64) (s : S) :
    printf calls dest mem fuel p (pieces.flatMap Piece.args ++ rest) s =
      (Outcome.forEach (putchar calls dest) (pieces.flatMap Piece.text) s).bind fun _ s =>
      .done (BitVec.ofNat 32 (pieces.flatMap Piece.text).length) s := by
  rw [printf,printFormat_eq calls dest hfits hmem hfuel,emit,BitVec.zero_add]

theorem print_eq {text : List U8} {len : U32} (hlen : text.length = len.toNat) (s : S) :
    print calls dest text len s = Outcome.forEach (putchar calls dest) text s := by
  have htext : ((List.range len.toNat).map (BitVec.ofNat 32)).map
      (fun i => text.getD i.toNat 0#8) = text := by
    refine List.ext_getElem (by simp [hlen]) fun i hi hi' => ?_
    have hbound := len.isLt
    have hmod : i % 4294967296 = i := Nat.mod_eq_of_lt (by omega)
    simp [hmod,hi']
  rw [print,Outcome.forTo_eq_forEach,
    ← Outcome.forEach_map (putchar calls dest) (fun i : U32 => text.getD i.toNat 0#8),htext]

theorem printLabelled_text {label : String} (hlabel : label.toList.length = 7)
    {format : U64} {pieces : List Piece} (hfits : ∀ piece ∈ pieces, piece.Fits mem)
    (hmem : HoldsAt mem format (pieces.flatMap Piece.format ++ [0#8])) (rest : List U64) :
    ∃ m, ∀ fuel ≥ m, ∀ s,
      printLabelled calls mem label fuel format (pieces.flatMap Piece.args ++ rest) s =
        (Outcome.forEach (putchar calls .serial)
          (label.toList.map ascii ++ (pieces.flatMap Piece.text ++ [ascii '\n'])) s).bind fun _ s =>
        .done (BitVec.ofNat 32 (pieces.flatMap Piece.text).length) s := by
  refine ⟨(pieces.map fun piece => piece.text.length + 1).sum + 1,fun fuel hfuel s => ?_⟩
  have hprint : (label.toList.map ascii).length = (7#32).toNat := by
    rw [List.length_map,hlabel]
    rfl
  rw [printLabelled,print_eq calls .serial hprint,Outcome.forEach_append]
  simp only [printf_eq calls .serial hfits hmem hfuel,Outcome.forEach_append,Outcome.forEach,
    Outcome.bind_assoc,Outcome.bind_done]

/-- The functions of the serial port print their label in front of the text and a line feed behind
it. The length is that of the text alone. -/
theorem serial_text {format : U64} {pieces : List Piece} (hfits : ∀ piece ∈ pieces, piece.Fits mem)
    (hmem : HoldsAt mem format (pieces.flatMap Piece.format ++ [0#8])) (rest : List U64) :
    ∀ f ∈ [("DEBUG: ",serialDebug calls mem),("INFO:  ",serialInfo calls mem),
        ("WARN:  ",serialWarn calls mem),("ERROR: ",serialError calls mem)],
      ∃ m, ∀ fuel ≥ m, ∀ s, f.2 fuel format (pieces.flatMap Piece.args ++ rest) s =
        (Outcome.forEach (putchar calls .serial)
          (f.1.toList.map ascii ++ (pieces.flatMap Piece.text ++ [ascii '\n'])) s).bind fun _ s =>
        .done (BitVec.ofNat 32 (pieces.flatMap Piece.text).length) s := by
  intro f hf
  simp only [List.mem_cons,List.not_mem_nil,or_false] at hf
  rcases hf with rfl | rfl | rfl | rfl
  · exact printLabelled_text calls (by decide) hfits hmem rest
  · exact printLabelled_text calls (by decide) hfits hmem rest
  · exact printLabelled_text calls (by decide) hfits hmem rest
  · exact printLabelled_text calls (by decide) hfits hmem rest

/-- `%u` and `%x` print the numeral of their argument, and a call with a format of ordinary characters
and directives prints the texts of all pieces in order and returns how many characters these are. -/
theorem printf_text {format : U64} {pieces : List Piece} (hfits : ∀ piece ∈ pieces, piece.Fits mem)
    (hmem : HoldsAt mem format (pieces.flatMap Piece.format ++ [0#8])) (rest : List U64) :
    (∀ n : U64, IsNumeral 10 n.toNat (numeral 10 n.toNat) ∧ IsNumeral 16 n.toNat (numeral 16 n.toNat) ∧
      (Piece.unsigned n).text = (numeral 10 n.toNat).map digitByte ∧
      (Piece.hex n).text = (numeral 16 n.toNat).map digitByte) ∧
    ∃ m, ∃ length : U32, ((pieces.flatMap Piece.text).length < 2 ^ 32 →
        length.toNat = (pieces.flatMap Piece.text).length) ∧
      ∀ fuel ≥ m, ∀ s, printf calls dest mem fuel format (pieces.flatMap Piece.args ++ rest) s =
        (Outcome.forEach (putchar calls dest) (pieces.flatMap Piece.text) s).bind fun _ s =>
        .done length s := by
  refine ⟨fun n => ⟨isNumeral_numeral (by decide) _,isNumeral_numeral (by decide) _,rfl,rfl⟩,
    (pieces.map fun piece => piece.text.length + 1).sum + 1,
    BitVec.ofNat 32 (pieces.flatMap Piece.text).length,fun hlen => ?_,fun fuel hfuel s => ?_⟩
  · rw [BitVec.toNat_ofNat]
    exact Nat.mod_eq_of_lt hlen
  · exact printf_eq calls dest hfits hmem hfuel rest s

end Format

namespace Sample

/-- Devices that keep what was put out. -/
def recorder : OutputCalls (List U8) where
  vgaPutchar c s := .done () (s ++ [c])
  serialPutchar c s := .done () (s ++ [c])
  vgaIsInitialized _ := true

theorem recorder_forEach (text s : List U8) :
    Outcome.forEach (putchar recorder .frameBuffer) text s = .done () (s ++ text) := by
  induction text generalizing s with
  | nil => rw [Outcome.forEach,List.append_nil]
  | cons c text ih =>
    rw [Outcome.forEach]
    change Outcome.forEach _ text (s ++ [c]) = _
    rw [ih,List.append_assoc,List.singleton_append]

/-- The format `%u%%=%x%c%s`, and a string behind it. -/
def memory (p : U64) : U8 := ("%u%%=%x%c%s\x00end\x00".toList.map ascii).getD p.toNat 0#8

def pieces : List Piece :=
  [.unsigned 10203#64,.percent,.char (ascii '='),.hex 0xA0B#64,.character 0x141#64,
    .string 12#64 ("end".toList.map ascii)]

theorem pieces_fit : ∀ piece ∈ pieces, piece.Fits memory := by
  intro piece hp
  simp only [pieces,List.mem_cons,List.not_mem_nil,or_false] at hp
  rcases hp with rfl | rfl | rfl | rfl | rfl | rfl
  · trivial
  · trivial
  · exact ⟨by decide,by decide⟩
  · trivial
  · trivial
  · exact ⟨⟨rfl,rfl,rfl,rfl,trivial⟩,by decide⟩

theorem pieces_text : pieces.flatMap Piece.text = "10203%=A0BAend".toList.map ascii := by
  decide +kernel

theorem printf_pieces : ∃ m, ∀ fuel ≥ m,
    printf recorder .frameBuffer memory fuel 0#64 [10203#64,0xA0B#64,0x141#64,12#64] [] =
      .done 14#32 ("10203%=A0BAend".toList.map ascii) := by
  have hmem : HoldsAt memory 0#64 (pieces.flatMap Piece.format ++ [0#8]) :=
    ⟨rfl,rfl,rfl,rfl,rfl,rfl,rfl,rfl,rfl,rfl,rfl,rfl,trivial⟩
  obtain ⟨-,m,length,hlength,hprint⟩ :=
    printf_text recorder .frameBuffer pieces_fit hmem []
  rw [pieces_text] at hlength hprint
  have hlen : length = 14#32 := BitVec.eq_of_toNat_eq (hlength (by decide))
  refine ⟨m,fun fuel hfuel => ?_⟩
  have h := hprint fuel hfuel []
  rw [recorder_forEach,hlen] at h
  exact h

end Sample

end Lios.Output
