/-!
The character set of the first personal computers. Its lower half agrees with ASCII.
-/

namespace EnumNames.CodePage437

/-- These are the characters of the bytes from 0x80 on. -/
def upperHalf : Array Char :=
  ("ÇüéâäàåçêëèïîìÄÅÉæÆôöòûùÿÖÜ¢£¥₧ƒ" ++
    "áíóúñÑªº¿⌐¬½¼¡«»░▒▓│┤╡╢╖╕╣║╗╝╜╛┐" ++
    "└┴┬├─┼╞╟╚╔╩╦╠═╬╧╨╤╥╙╘╒╓╫╪┘┌█▄▌▐▀" ++
    "αßΓπΣσµτΦΘΩδ∞φε∩≡±≥≤⌠⌡÷≈°∙·√ⁿ²■\u00A0").toList.toArray

def character (byte : UInt8) : Char :=
  if byte < 0x80 then
    Char.ofNat byte.toNat
  else
    upperHalf.getD (byte.toNat - 0x80) '\uFFFD'

def decode (bytes : ByteArray) : String :=
  String.ofList (bytes.data.toList.map character)

end EnumNames.CodePage437
