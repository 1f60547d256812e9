import MethodProbes.Text.Hidden

/-!
# Quoted text

Error messages show a text they reject between double quotes, so that blanks at its ends and
characters without a shape can be seen.
-/
namespace MethodProbes.Text

/-- How one character is written between the quotes.  A single quote stands for itself. -/
def escape (c : Char) : List Char :=
  match c with
  | '"' => ['\\', '"']
  | '\\' => ['\\', '\\']
  | '\n' => ['\\', 'n']
  | '\r' => ['\\', 'r']
  | '\t' => ['\\', 't']
  | '\x00' => ['\\', '0']
  | c => if isHidden c then ['\\', 'u', '\x7b'] ++ Nat.toDigits 16 c.toNat ++ ['\x7d'] else [c]

def quoted (s : String) : String :=
  String.ofList ('"' :: s.toList.flatMap escape ++ ['"'])

end MethodProbes.Text
