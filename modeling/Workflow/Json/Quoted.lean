/-!
Strings in JSON text: `encode` writes the shortest escape that a character needs, `decode` reads up
to the closing quote and takes every spelling of a character.
-/

namespace Workflow.Json

set_option autoImplicit false

/-- Why a text is not JSON. -/
inductive Malformed where
  | unfinished
  | unexpected (c : Char)
  | badEscape
  | bareControl (c : Char)
  | badNumber
  | numberOutOfRange
  | tooDeep
  | trailing
deriving DecidableEq, Repr

namespace Quoted

def hexDigit? (c : Char) : Option Nat :=
  if '0' ≤ c ∧ c ≤ '9' then some (c.toNat - '0'.toNat)
  else if 'a' ≤ c ∧ c ≤ 'f' then some (c.toNat - 'a'.toNat + 10)
  else if 'A' ≤ c ∧ c ≤ 'F' then some (c.toNat - 'A'.toNat + 10)
  else none

/-- Four hexadecimal digits. -/
def unit? (a b c d : Char) : Option Nat := do
  let w ← hexDigit? a
  let x ← hexDigit? b
  let y ← hexDigit? c
  let z ← hexDigit? d
  some (((w * 16 + x) * 16 + y) * 16 + z)

def isLead (n : Nat) : Bool := 0xD800 ≤ n && n ≤ 0xDBFF

def isTrail (n : Nat) : Bool := 0xDC00 ≤ n && n ≤ 0xDFFF

/-- The character of a pair of surrogates. -/
def ofPair (lead trail : Nat) : Char :=
  Char.ofNat (0x10000 + (lead - 0xD800) * 0x400 + (trail - 0xDC00))

def short? : Char → Option Char
  | '"' => some '"'
  | '\\' => some '\\'
  | '/' => some '/'
  | 'b' => some '\x08'
  | 'f' => some '\x0c'
  | 'n' => some '\n'
  | 'r' => some '\r'
  | 't' => some '\t'
  | _ => none

def encodeChar : Char → List Char
  | '"' => ['\\', '"']
  | '\\' => ['\\', '\\']
  | '\x08' => ['\\', 'b']
  | '\x0c' => ['\\', 'f']
  | '\n' => ['\\', 'n']
  | '\r' => ['\\', 'r']
  | '\t' => ['\\', 't']
  | c =>
    if c < ' ' then
      ['\\', 'u', '0', '0', Nat.digitChar (c.toNat / 16), Nat.digitChar (c.toNat % 16)]
    else [c]

/-- The characters of a string as text, without the quotes. -/
def encode (cs : List Char) : List Char := cs.flatMap encodeChar

/-- A string's characters and the text after its closing quote. -/
def decode : List Char → Except Malformed (List Char × List Char)
  | [] => .error .unfinished
  | '"' :: rest => .ok ([], rest)
  | '\\' :: 'u' :: a :: b :: c :: d :: rest =>
    match unit? a b c d with
    | none => .error .badEscape
    | some lead =>
      if isLead lead then
        match rest with
        | '\\' :: 'u' :: e :: f :: g :: h :: rest =>
          match unit? e f g h with
          | none => .error .badEscape
          | some trail =>
            if isTrail trail then do
              let (cs, rest) ← decode rest
              .ok (ofPair lead trail :: cs, rest)
            else .error .badEscape
        | _ => .error .badEscape
      else if isTrail lead then .error .badEscape
      else do
        let (cs, rest) ← decode rest
        .ok (Char.ofNat lead :: cs, rest)
  | '\\' :: c :: rest =>
    match short? c with
    | none => .error .badEscape
    | some e => do
      let (cs, rest) ← decode rest
      .ok (e :: cs, rest)
  | ['\\'] => .error .unfinished
  | c :: rest =>
    if c < ' ' then .error (.bareControl c)
    else do
      let (cs, rest) ← decode rest
      .ok (c :: cs, rest)

end Quoted
end Workflow.Json
