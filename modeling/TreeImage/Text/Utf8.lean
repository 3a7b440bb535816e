import TreeImage.Bytes

/-!
# UTF-8

`utf8` writes a text as bytes. `ofUtf8Lossy` reads any bytes as text: well-formed sequences
become their characters, and each maximal beginning of a sequence that cannot be completed
becomes one replacement character. Reading what was written gives the text back.
-/

namespace TreeImage.Text

def utf8 (s : String) : Bytes := s.toList.flatMap String.utf8EncodeChar

/-- Stands for bytes that are not text. -/
def replacement : Char := '\uFFFD'

/-- A sequence under way: the bits read so far, the range of the byte that has to follow, and
how many more bytes come after that one. -/
structure Unfinished where
  value : Nat
  least : Nat
  greatest : Nat
  more : Nat
  deriving DecidableEq, Repr

/-- What a byte means at the start of a sequence. -/
inductive Opening where
  | single (c : Char)
  | sequence (u : Unfinished)
  | invalid
  deriving DecidableEq, Repr

/-- The byte after the first one is narrowed so that no character has two spellings, none is a
surrogate and none lies above U+10FFFF. -/
def Opening.ofByte (b : UInt8) : Opening :=
  let n := b.toNat
  if n < 0x80 then .single (Char.ofNat n)
  else if 0xC2 ≤ n ∧ n ≤ 0xDF then .sequence ⟨n - 0xC0, 0x80, 0xBF, 0⟩
  else if n = 0xE0 then .sequence ⟨0, 0xA0, 0xBF, 1⟩
  else if n = 0xED then .sequence ⟨0xD, 0x80, 0x9F, 1⟩
  else if 0xE1 ≤ n ∧ n ≤ 0xEF then .sequence ⟨n - 0xE0, 0x80, 0xBF, 1⟩
  else if n = 0xF0 then .sequence ⟨0, 0x90, 0xBF, 2⟩
  else if 0xF1 ≤ n ∧ n ≤ 0xF3 then .sequence ⟨n - 0xF0, 0x80, 0xBF, 2⟩
  else if n = 0xF4 then .sequence ⟨4, 0x80, 0x8F, 2⟩
  else .invalid

def Unfinished.accepts (u : Unfinished) (b : UInt8) : Bool :=
  u.least ≤ b.toNat && b.toNat ≤ u.greatest

/-- The sequence after one more byte, which `u` accepts. -/
def Unfinished.push (u : Unfinished) (b : UInt8) : Opening :=
  let value := u.value * 64 + (b.toNat - 0x80)
  match u.more with
  | 0 => .single (Char.ofNat value)
  | more + 1 => .sequence ⟨value, 0x80, 0xBF, more⟩

/-- The characters of `bytes` that follow a sequence under way, if there is one. -/
def decodeLossy : Option Unfinished → Bytes → List Char
  | none, [] => []
  | some _, [] => [replacement]
  | none, b :: rest =>
    match Opening.ofByte b with
    | .single c => c :: decodeLossy none rest
    | .sequence u => decodeLossy (some u) rest
    | .invalid => replacement :: decodeLossy none rest
  | some u, b :: rest =>
    if u.accepts b then
      match u.push b with
      | .single c => c :: decodeLossy none rest
      | .sequence u => decodeLossy (some u) rest
      | .invalid => replacement :: decodeLossy none rest
    else
      match Opening.ofByte b with
      | .single c => replacement :: c :: decodeLossy none rest
      | .sequence u => replacement :: decodeLossy (some u) rest
      | .invalid => replacement :: replacement :: decodeLossy none rest

def ofUtf8Lossy (bytes : Bytes) : String := String.ofList (decodeLossy none bytes)

@[simp] theorem utf8_empty : utf8 "" = [] := rfl

@[simp] theorem utf8_append (s t : String) : utf8 (s ++ t) = utf8 s ++ utf8 t := by
  simp [utf8, String.toList_append]

end TreeImage.Text
