import Workflow.Text.Hidden

/-!
Strings as messages show them: between double quotes, with short escapes for the usual control
characters and the number of every other hidden character.
-/

namespace Workflow.Text

set_option autoImplicit false

def hex (n : Nat) : List Char := Nat.toDigits 16 n

def quoteChar (c : Char) : List Char :=
  match c with
  | '\x00' => ['\\', '0']
  | '\t' => ['\\', 't']
  | '\n' => ['\\', 'n']
  | '\r' => ['\\', 'r']
  | '"' => ['\\', '"']
  | '\\' => ['\\', '\\']
  | _ => if isHidden c then ['\\', 'u', '{'] ++ hex c.toNat ++ ['}'] else [c]

def quote (s : String) : String :=
  String.ofList (['"'] ++ s.toList.flatMap quoteChar ++ ['"'])

example : quote "a\t'\"\x1b" = "\"a\\t'\\\"\\u\x7b1b\x7d\"" := by decide +kernel

end Workflow.Text
