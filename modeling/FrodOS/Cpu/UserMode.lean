import FrodOS.Cpu.Programs

/-!
# The way into user mode (user_jump.s)

`jump_to_user_mode` leaves the kernel through an `iretd` for which no interrupt came: it pushes
the frame of a program that has not run yet.
-/

namespace FrodOS
open Lib

namespace Cpu

variable {l : Labels} {d : Cpu}

end Cpu

end FrodOS
