import SpatulaOS.Lib.Memory

/-!
# Printing

What a kernel routine prints is the sequence of calls it makes on the VGA
driver (`video/vga.h`), in order, with their arguments.
-/

namespace SpatulaOS.Video

open ByteMemory

/-- A printing call on the VGA driver. -/
inductive VgaCall where
  /-- `vga_print(s)`. -/
  | print (s : String)
  /-- `vga_print_dec(v)`. -/
  | printDec (v : Word)
  /-- `vga_print_hex(v)`. -/
  | printHex (v : Word)
  deriving DecidableEq, Repr

end SpatulaOS.Video
