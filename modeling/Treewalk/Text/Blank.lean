/-!
# Blanks around a line

The characters that are dropped from both ends of a shell line before it is compared with the shell's
own commands. The set is wider than the blanks between tokens: it has the separators of every script.
-/

namespace Treewalk.Text

/-- Tabs, line ends, the four information separators, the space, and the spaces of other scripts. -/
def isBlank (c : Char) : Bool :=
  let n := c.toNat
  (0x09 ≤ n && n ≤ 0x0D) || (0x1C ≤ n && n ≤ 0x20) || n == 0x85 || n == 0xA0 || n == 0x1680 ||
    (0x2000 ≤ n && n ≤ 0x200A) || n == 0x2028 || n == 0x2029 || n == 0x202F || n == 0x205F ||
    n == 0x3000

/-- A text without the blanks at its two ends. -/
def trimmed (text : List Char) : List Char :=
  ((text.dropWhile isBlank).reverse.dropWhile isBlank).reverse

example : trimmed " \t exit\r\n".toList = "exit".toList := by decide

end Treewalk.Text
