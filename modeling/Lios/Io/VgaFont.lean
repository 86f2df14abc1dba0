import Lios.Util.Const

/-! # The font of the screen

Two words for each character: the upper and the lower eight lines of its glyph, eight
pixels a line, from the lowest bit on.
-/
namespace Lios

def vgaFont : List U64 :=
  [0xE7CF9999C37E0000#64,0x7EE7E7FFE7#64,0x6667FE0000000000#64,0xC3666666#64,
    0xC187F3060000000#64,0x3067F#64,0xC060C1830000000#64,0x7E003018#64,
    0x306030180C000000#64,0x7E000C18#64,0x3E3E3E3E00000000#64,0x3E3E3E#64,
    0x7F3E1C0800000000#64,0x81C3E#64,0xC18366646070600#64,0x6060FC697366#64,
    0xC18366646070600#64,0xF83060D97306#64,0xC18376C460C0700#64,0x6060FC697366#64,
    0x181818181800#64,0x1818181818#64,0x363600#64,0x0#64,
    0x0#64,0x3E603000000000#64,0x7E181818D8700000#64,0xE1B1818181818#64,
    0x18187E1818180000#64,0x18181818#64,0x18187E1818180000#64,0x1818187E#64,
    0x1830634300000000#64,0xD9DB060C#64,0x8AAADA8F0000#64,0x0#64,
    0x0#64,0xDBDB0000#64,0xC18300000000000#64,0x3018#64,
    0x30180C0000000000#64,0xC18#64,0xCC66666600#64,0x0#64,
    0x3366666600#64,0x0#64,0x0#64,0x336666660000#64,
    0x0#64,0xCC6666660000#64,0x0#64,0x301818180000#64,
    0x7B0343663C001C36#64,0x5C666363#64,0x33336E001C360000#64,0x1E33303E333333#64,
    0x1818183C00181800#64,0x3C181818#64,0x18181C0000000000#64,0x3C181818#64,
    0x301C0663633E0000#64,0x3E60303E636360#64,0x6633E0000000000#64,0x3E60303E63301C#64,
    0x0#64,0x0#64,0x18183C3C3C180000#64,0x18180018#64,
    0x2466666600#64,0x0#64,0x36367F3636000000#64,0x36367F36#64,
    0x3E0B4B6B3E080800#64,0x8083E6B6968#64,0x1830634300000000#64,0x6163060C#64,
    0x3B6E1C36361C0000#64,0x6E333333#64,0xC18181800#64,0x0#64,
    0xC0C0C0C18300000#64,0x30180C0C#64,0x30303030180C0000#64,0xC183030#64,
    0x7F1C360000000000#64,0x361C#64,0x7E18180000000000#64,0x1818#64,
    0x0#64,0xC1818180000#64,0x7E00000000000000#64,0x0#64,
    0x0#64,0x18180000#64,0x1830604000000000#64,0x103060C#64,
    0x6B6B6363633E0000#64,0x3E636363#64,0x1818181E1C180000#64,0x7E181818#64,
    0xC183060633E0000#64,0x7F630306#64,0x603C6060633E0000#64,0x3E636060#64,
    0x7F33363C38300000#64,0x78303030#64,0x603F0303037F0000#64,0x3E636060#64,
    0x633F0303061C0000#64,0x3E636363#64,0x18306060637F0000#64,0xC0C0C0C#64,
    0x633E6363633E0000#64,0x3E636363#64,0x607E6363633E0000#64,0x1E306060#64,
    0x18180000000000#64,0x18180000#64,0x18180000000000#64,0xC1818180000#64,
    0x60C183060000000#64,0x6030180C#64,0x7E0000000000#64,0x7E#64,
    0x6030180C06000000#64,0x60C1830#64,0x18183063633E0000#64,0x18180018#64,
    0x7B7B6363633E0000#64,0x3E033B7B#64,0x7F6363361C080000#64,0x63636363#64,
    0x663E6666663F0000#64,0x3F666666#64,0x3030343663C0000#64,0x3C664303#64,
    0x66666666361F0000#64,0x1F366666#64,0x161E1646667F0000#64,0x7F664606#64,
    0x161E1646667F0000#64,0xF060606#64,0x7B030343663C0000#64,0x5C666363#64,
    0x637F636363630000#64,0x63636363#64,0x18181818183C0000#64,0x3C181818#64,
    0x3030303030780000#64,0x1E333333#64,0x1E1E366666670000#64,0x67666636#64,
    0x6060606060F0000#64,0x7F664606#64,0xC3DBFFFFE7C30000#64,0xC3C3C3C3#64,
    0x737B7F6F67630000#64,0x63636363#64,0x63636363633E0000#64,0x3E636363#64,
    0x63E6666663F0000#64,0xF060606#64,0x63636363633E0000#64,0x70303E7B6B63#64,
    0x363E6666663F0000#64,0x67666666#64,0x301C0663633E0000#64,0x3E636360#64,
    0x18181899DBFF0000#64,0x3C181818#64,0x6363636363630000#64,0x3E636363#64,
    0xC3C3C3C3C3C30000#64,0x183C66C3#64,0xDBC3C3C3C3C30000#64,0x6666FFDB#64,
    0x18183C66C3C30000#64,0xC3C3663C#64,0x183C66C3C3C30000#64,0x3C181818#64,
    0xC183061C3FF0000#64,0xFFC38306#64,0xC0C0C0C0C3C0000#64,0x3C0C0C0C#64,
    0xC06030100000000#64,0x40603018#64,0x30303030303C0000#64,0x3C303030#64,
    0x63361C08#64,0x0#64,0x0#64,0x7F0000000000#64,
    0x3018181800#64,0x0#64,0x3E301E0000000000#64,0x6E333333#64,
    0x66361E0606070000#64,0x3E666666#64,0x3633E0000000000#64,0x3E630303#64,
    0x33363C3030380000#64,0x6E333333#64,0x7F633E0000000000#64,0x3E630303#64,
    0x60F0626361C0000#64,0xF060606#64,0x33336E0000000000#64,0x1E33303E333333#64,
    0x666E360606070000#64,0x67666666#64,0x18181C0018180000#64,0x3C181818#64,
    0x6060700060600000#64,0x3C666660606060#64,0x1E36660606070000#64,0x6766361E#64,
    0x18181818181C0000#64,0x3C181818#64,0xDBFF670000000000#64,0xDBDBDBDB#64,
    0x66663B0000000000#64,0x66666666#64,0x63633E0000000000#64,0x3E636363#64,
    0x66663B0000000000#64,0xF06063E666666#64,0x33336E0000000000#64,0x7830303E333333#64,
    0x666E3B0000000000#64,0xF060606#64,0x6633E0000000000#64,0x3E63301C#64,
    0xC0C3F0C0C080000#64,0x386C0C0C#64,0x3333330000000000#64,0x6E333333#64,
    0xC3C3C30000000000#64,0x183C66C3#64,0xC3C3C30000000000#64,0x66FFDBDB#64,
    0x3C66C30000000000#64,0xC3663C18#64,0x6363630000000000#64,0x1F30607E636363#64,
    0x18337F0000000000#64,0x7F63060C#64,0x180E181818700000#64,0x70181818#64,
    0x1818181818181800#64,0x1818181818#64,0x18701818180E0000#64,0xE181818#64,
    0x3B6E0000#64,0x0#64,0x3C18000000000000#64,0x183C#64,
    0x6363361C00180C06#64,0x6363637F#64,0x6363361C000C1830#64,0x6363637F#64,
    0x6363361C00361C08#64,0x6363637F#64,0x6363361C003B6E00#64,0x6363637F#64,
    0x6363361C00363600#64,0x6363637F#64,0x6363361C081C361C#64,0x6363637F#64,
    0x33FF3333B6FC0000#64,0xF3B33333#64,0x3030343663C0000#64,0x3E60303C664303#64,
    0x1E16467F00180C06#64,0x7F460616#64,0x1E16467F000C1830#64,0x7F460616#64,
    0x1E16467F00361C08#64,0x7F460616#64,0x1E16467F00363600#64,0x7F460616#64,
    0x1818183C0030180C#64,0x3C181818#64,0x1818183C000C1830#64,0x3C181818#64,
    0x1818183C00361C08#64,0x3C181818#64,0x1818183C00666600#64,0x3C181818#64,
    0x666F6666361F0000#64,0x1F366666#64,0x7B7F6F6763003B6E#64,0x63636373#64,
    0x6363633E00180C06#64,0x3E636363#64,0x6363633E000C1830#64,0x3E636363#64,
    0x6363633E00361C08#64,0x3E636363#64,0x6363633E003B6E00#64,0x3E636363#64,
    0x6363633E00363600#64,0x3E636363#64,0x1C36630000000000#64,0x6336#64,
    0x6E7E7666E6BC0000#64,0x3D676666#64,0x6363636300180C06#64,0x3E636363#64,
    0x63636363000C1830#64,0x3E636363#64,0x6363636300361C08#64,0x3E636363#64,
    0x6363636300363600#64,0x3E636363#64,0x3C66C3C3000C1830#64,0x3C181818#64,
    0x6666663E060F0000#64,0xF063E66#64,0x331B3333331E0000#64,0x33636363#64,
    0xAA55AA55AA55AA55#64,0xAA55AA55AA55AA55#64,0x1818180018180000#64,0x183C3C3C#64,
    0xB6B3E0800000000#64,0x83E6B0B0B#64,0x60F060626361C00#64,0x3F660606#64,
    0x1F063F06CC780000#64,0x78CC0606#64,0x7E183C66C3C30000#64,0x18187E18#64,
    0x1C0663633E081C36#64,0x3E636330#64,0x6363361C06633E00#64,0x3E63301C36#64,
    0x6633E00081C3600#64,0x3E63301C#64,0x8585A599423C0000#64,0x3C4299A5#64,
    0x7E007C36363C00#64,0x0#64,0x1B366C0000000000#64,0x6C36#64,
    0x607F000000000000#64,0x6060#64,0x66663C6600000000#64,0x663C66#64,
    0x42A59DA59D423C00#64,0x3C#64,0x3E0000#64,0x0#64,
    0x1C36361C00#64,0x0#64,0x7E18180000000000#64,0x7E001818#64,
    0x3E0C18361C00#64,0x0#64,0x1E301C301E00#64,0x0#64,
    0x183061C3FF081C36#64,0xFFC3860C#64,0x6666660000000000#64,0x30606DE666666#64,
    0xD8DEDBDBDBFE0000#64,0xD8D8D8D8#64,0x1800000000000000#64,0x18#64,
    0x18337F00081C3600#64,0x7F63060C#64,0x3C18181C1800#64,0x0#64,
    0x3E001C3636361C00#64,0x0#64,0x6C361B0000000000#64,0x1B36#64,
    0x33F33333B3FE0000#64,0xFEB33333#64,0xDBDB7E0000000000#64,0x7EDB1BFB#64,
    0x3C66C3C300666600#64,0x3C181818#64,0xC0C0C000C0C0000#64,0x3E636306#64,
    0xFF00000000000000#64,0x0#64,0x1818181818181818#64,0x1818181818181818#64,
    0xF800000000000000#64,0x1818181818181818#64,0x1F00000000000000#64,0x1818181818181818#64,
    0xF818181818181818#64,0x0#64,0x1F18181818181818#64,0x0#64,
    0xF818181818181818#64,0x1818181818181818#64,0x1F18181818181818#64,0x1818181818181818#64,
    0xFF00000000000000#64,0x1818181818181818#64,0xFF18181818181818#64,0x0#64,
    0xFF18181818181818#64,0x1818181818181818#64,0x4411441144114411#64,0x4411441144114411#64,
    0xFF#64,0x0#64,0xFF00000000#64,0x0#64,
    0x0#64,0xFF0000#64,0x0#64,0xFF000000000000#64,
    0xFF000000000000#64,0xFF#64,0x6C6C6C6C6C6C6C6C#64,0x6C6C6C6C6C6C6C6C#64,
    0xCFC000000000000#64,0x6C6C6C6C6C6C6CEC#64,0x607F000000000000#64,0x6C6C6C6C6C6C6C6F#64,
    0xCEC6C6C6C6C6C6C#64,0xFC#64,0x606F6C6C6C6C6C6C#64,0x7F#64,
    0xCEC6C6C6C6C6C6C#64,0x6C6C6C6C6C6C6CEC#64,0x606F6C6C6C6C6C6C#64,0x6C6C6C6C6C6C6C6F#64,
    0xFF000000000000#64,0x6C6C6C6C6C6C6CEF#64,0xEF6C6C6C6C6C6C#64,0xFF#64,
    0xEF6C6C6C6C6C6C#64,0x6C6C6C6C6C6C6CEF#64,0xFFFFFFFFFFFFFFFF#64,0xFFFFFFFFFFFFFFFF#64,
    0x1818187E3C180000#64,0x18181818#64,0x1818181818180000#64,0x183C7E18#64,
    0xFE0C180000000000#64,0x180C#64,0x7F30180000000000#64,0x1830#64,
    0x3E301E00180C0600#64,0x6E333333#64,0x3E301E000C183000#64,0x6E333333#64,
    0x3E301E00361C0800#64,0x6E333333#64,0x3E301E003B6E0000#64,0x6E333333#64,
    0x3E301E0036360000#64,0x6E333333#64,0x3E301E001C361C00#64,0x6E333333#64,
    0xDED86E0000000000#64,0x76DB1BFB#64,0x3633E0000000000#64,0x3E60303E630303#64,
    0x7F633E00180C0600#64,0x3E630303#64,0x7F633E000C183000#64,0x3E630303#64,
    0x7F633E00361C0800#64,0x3E630303#64,0x7F633E0036360000#64,0x3E630303#64,
    0x18181C00180C0600#64,0x3C181818#64,0x18181C000C183000#64,0x3C181818#64,
    0x18181C00361C0800#64,0x3C181818#64,0x18181C0036360000#64,0x3C181818#64,
    0x667C6034182C0000#64,0x3C666666#64,0x66663B003B6E0000#64,0x66666666#64,
    0x63633E00180C0600#64,0x3E636363#64,0x63633E000C183000#64,0x3E636363#64,
    0x63633E00361C0800#64,0x3E636363#64,0x63633E003B6E0000#64,0x3E636363#64,
    0x63633E0036360000#64,0x3E636363#64,0x7E00181800000000#64,0x181800#64,
    0x76E6BC0000000000#64,0x3D676E7E#64,0x33333300180C0600#64,0x6E333333#64,
    0x333333000C183000#64,0x6E333333#64,0x33333300361C0800#64,0x6E333333#64,
    0x3333330036360000#64,0x6E333333#64,0x636363000C183000#64,0x1F30607E636363#64,
    0x66663E0606070000#64,0xF06063E666666#64,0x6363630036360000#64,0x1F30607E636363#64]

end Lios
