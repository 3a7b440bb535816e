import TreeImage.Json.Parser
import TreeImage.Json.Printer

/-!
# JSON texts

What is written as JSON is read back, in both styles and at every depth. A value is read up to its
end whatever follows it, as long as a number cannot go on there. The blanks of the pretty style stand
only where a reader passes over blanks, and every escape stands for one character. The reader takes
a unit of fuel for every character at most, so that the length of a text is enough.
-/

namespace TreeImage.Json

/-! ## Blanks -/

theorem skipBlanks_cons {c : Char} (h : isBlank c = false) (s : List Char) :
    skipBlanks (c :: s) = c :: s := by
  simp [skipBlanks, h]

/-- A line break is passed over. -/
theorem skipBlanks_lineBreak (style : Style) (depth : Nat) (s : List Char) :
    skipBlanks (style.lineBreak depth ++ s) = skipBlanks s := by
  have hspaces : ∀ c ∈ style.lineBreak depth, isBlank c = true := by
    intro c hc
    cases style with
    | compact => simp [Style.lineBreak] at hc
    | pretty =>
      simp only [Style.lineBreak, List.mem_cons, List.mem_replicate] at hc
      rcases hc with rfl | ⟨-, rfl⟩ <;> rfl
  rw [skipBlanks, List.dropWhile_append_of_pos hspaces, skipBlanks]

/-- The text begins like a value: with no blank, and not with the end of a container. -/
def Opens (s : List Char) : Prop :=
  ∃ c rest, s = c :: rest ∧ isBlank c = false ∧ c ≠ ']' ∧ c ≠ '}'

theorem Opens.skipBlanks_eq {s : List Char} (h : Opens s) : skipBlanks s = s := by
  obtain ⟨c, rest, rfl, hblank, -⟩ := h
  exact skipBlanks_cons hblank rest

/-- No number goes on with this text. -/
def EndsNumber (rest : List Char) : Prop :=
  ∀ c, rest.head? = some c → c.isDigit = false ∧ c ≠ '.' ∧ c ≠ 'e' ∧ c ≠ 'E'

theorem endsNumber_nil : EndsNumber [] := by simp [EndsNumber]

theorem endsNumber_cons {c : Char} (h : c.isDigit = false ∧ c ≠ '.' ∧ c ≠ 'e' ∧ c ≠ 'E')
    (rest : List Char) : EndsNumber (c :: rest) := by
  rintro d ⟨⟩
  exact h

theorem endsNumber_lineBreak (style : Style) (depth : Nat) {rest : List Char}
    (h : EndsNumber rest) : EndsNumber (style.lineBreak depth ++ rest) := by
  cases style with
  | compact => exact h
  | pretty => exact endsNumber_cons (by decide) _

/-! ## Numbers -/

theorem forall_isDigit (n : Nat) : ∀ c ∈ Nat.toDigits 10 n, c.isDigit = true := fun _ hc =>
  Nat.isDigit_of_mem_toDigits (by decide) (by decide) hc

/-- A number other than zero does not begin with a zero. -/
theorem head?_toDigits_ne {n : Nat} (h : 0 < n) : (Nat.toDigits 10 n).head? ≠ some '0' := by
  induction n using Nat.strongRecOn with
  | ind n ih =>
    rw [Nat.toDigits_eq_if (by decide)]
    split
    · next hlt =>
      have hdigits : ∀ d < 10, 0 < d → Nat.digitChar d ≠ '0' := by decide
      simpa using hdigits n hlt h
    · next hge =>
      have hfront := ih (n / 10) (by omega) (by omega)
      obtain ⟨c, rest, hcons⟩ := List.exists_cons_of_ne_nil
        (Nat.toDigits_ne_nil (n := n / 10) (b := 10))
      rw [hcons] at hfront ⊢
      exact hfront

theorem spanDigits_append {digits rest : List Char} (hdigits : ∀ c ∈ digits, c.isDigit = true)
    (hrest : EndsNumber rest) : spanDigits (digits ++ rest) = (digits, rest) := by
  have hstop : rest.takeWhile Char.isDigit = [] ∧ rest.dropWhile Char.isDigit = rest := by
    cases rest with
    | nil => exact ⟨rfl, rfl⟩
    | cons c rest => simp [(hrest c rfl).1]
  rw [spanDigits, List.takeWhile_append_of_pos hdigits, List.dropWhile_append_of_pos hdigits,
    hstop.1, hstop.2, List.append_nil]

theorem readFraction_of_ends {rest : List Char} (h : EndsNumber rest) :
    readFraction rest = some (rest, false) := by
  unfold readFraction
  split
  · exact absurd rfl (h '.' rfl).2.1
  · rfl

theorem readExponent_of_ends {rest : List Char} (h : EndsNumber rest) :
    readExponent rest = some (rest, false) := by
  cases rest with
  | nil => rfl
  | cons c rest =>
    obtain ⟨-, -, hlower, hupper⟩ := h c rfl
    rw [readExponent, if_neg (by simp [hlower, hupper])]

theorem readUnsigned_toDigits (n : Nat) {rest : List Char} (h : EndsNumber rest) :
    readUnsigned (Nat.toDigits 10 n ++ rest) = some (.number n, rest) := by
  have hleading : ¬(1 < (Nat.toDigits 10 n).length ∧ (Nat.toDigits 10 n).head? = some '0') := by
    rintro ⟨hlong, hzero⟩
    cases n with
    | zero => simp [Nat.toDigits_zero] at hlong
    | succ n => exact head?_toDigits_ne (Nat.succ_pos n) hzero
  simp only [readUnsigned, spanDigits_append (forall_isDigit n) h]
  rw [if_neg (not_or.mpr ⟨Nat.toDigits_ne_nil, hleading⟩), readFraction_of_ends h]
  simp [readExponent_of_ends h, Nat.ofDigitChars_ten_toDigits]

/-! ## Texts -/

/-- How a character is written inside a text: as itself, or as a unit in base sixteen if it is a
control character without an escape of its own. -/
def pieceOf (c : Char) : Piece :=
  if c.toNat < 0x20 ∧ c ∉ ['\x08', '\x0c', '\n', '\r', '\t'] then .unit c.toNat else .char c

theorem hexDigit?_digitChar {d : Nat} (h : d < 16) : hexDigit? (Nat.digitChar d) = some d := by
  have hall : ∀ d < 16, hexDigit? (Nat.digitChar d) = some d := by decide
  exact hall d h

theorem hexUnit?_digitChars {n : Nat} (h : n < 0x20) :
    hexUnit? '0' '0' (Nat.digitChar (n / 16)) (Nat.digitChar (n % 16)) = some n := by
  have hzero : hexDigit? '0' = some 0 := rfl
  simp only [hexUnit?, hzero, hexDigit?_digitChar (Nat.mod_lt n (by decide)),
    hexDigit?_digitChar (show n / 16 < 16 by omega), bind, Option.bind, pure]
  congr 1
  omega

/-- A backslash and a character that is not `u` are read as what they stand for. -/
theorem readPieces_escape {escape c : Char} (hc : simpleEscape? escape = some c) (s : List Char) :
    readPieces ('\\' :: escape :: s) = (readPieces s).map fun (pieces, rest) =>
      (.char c :: pieces, rest) := by
  have hne : escape ≠ 'u' := by
    rintro rfl
    cases hc
  rw [readPieces]
  · rw [hc]
    cases readPieces s <;> rfl
  · exact fun _ _ _ _ _ hu _ => hne hu

theorem readPieces_unit {a b c d : Char} {n : Nat} (hn : hexUnit? a b c d = some n)
    (s : List Char) :
    readPieces ('\\' :: 'u' :: a :: b :: c :: d :: s) = (readPieces s).map fun (pieces, rest) =>
      (.unit n :: pieces, rest) := by
  rw [readPieces, hn]
  cases readPieces s <;> rfl

theorem readPieces_plain {c : Char} (hquote : c ≠ '"') (hslash : c ≠ '\\') (hc : ¬c.toNat < 0x20)
    (s : List Char) :
    readPieces (c :: s) = (readPieces s).map fun (pieces, rest) => (.char c :: pieces, rest) := by
  rw [readPieces]
  · rw [if_neg (not_or.mpr ⟨hc, hslash⟩)]
    cases readPieces s <;> rfl
  all_goals simp_all

/-- Each character is read as one piece. -/
theorem readPieces_printChar (c : Char) (s : List Char) :
    readPieces (printChar c ++ s) = (readPieces s).map fun (pieces, rest) =>
      (pieceOf c :: pieces, rest) := by
  by_cases hshort : c ∈ ['"', '\\', '\x08', '\x0c', '\n', '\r', '\t']
  · simp only [List.mem_cons, List.not_mem_nil, or_false] at hshort
    rcases hshort with rfl | rfl | rfl | rfl | rfl | rfl | rfl <;> exact readPieces_escape rfl s
  · simp only [List.mem_cons, List.not_mem_nil, or_false, not_or] at hshort
    obtain ⟨hquote, hslash, hb, hf, hn, hr, ht⟩ := hshort
    simp only [printChar, pieceOf, hquote, hslash, hb, hf, hn, hr, ht, if_false, List.mem_cons,
      List.not_mem_nil, or_false, not_false_eq_true, and_true]
    split
    · next hcontrol => exact readPieces_unit (hexUnit?_digitChars hcontrol) s
    · next hplain => exact readPieces_plain hquote hslash hplain s

theorem readPieces_flatMap_printChar (cs rest : List Char) :
    readPieces (cs.flatMap printChar ++ '"' :: rest) = some (cs.map pieceOf, rest) := by
  induction cs with
  | nil => rfl
  | cons c cs ih =>
    rw [List.flatMap_cons, List.append_assoc, readPieces_printChar, ih]
    rfl

/-- A unit that is no half of a surrogate pair is a character, whatever comes next. -/
theorem joinPieces?_unit {n : Nat} (hhigh : isHighSurrogate n = false)
    (hlow : isLowSurrogate n = false) (pieces : List Piece) :
    joinPieces? (.unit n :: pieces) = (joinPieces? pieces).map (Char.ofNat n :: ·) := by
  cases pieces with
  | nil => simp [joinPieces?, hhigh, hlow]
  | cons piece rest =>
    cases piece with
    | char c => simp [joinPieces?, hhigh, hlow]
    | unit m => simp [joinPieces?, hhigh, hlow]

theorem joinPieces?_pieceOf (c : Char) (pieces : List Piece) :
    joinPieces? (pieceOf c :: pieces) = (joinPieces? pieces).map (c :: ·) := by
  unfold pieceOf
  split
  · next h =>
    have hbelow := h.1
    rw [joinPieces?_unit, Char.ofNat_toNat]
    · simp [isHighSurrogate]
      omega
    · simp [isLowSurrogate]
      omega
  · rw [joinPieces?]

theorem joinPieces?_map_pieceOf (cs : List Char) : joinPieces? (cs.map pieceOf) = some cs := by
  induction cs with
  | nil => rfl
  | cons c cs ih => rw [List.map_cons, joinPieces?_pieceOf, ih, Option.map_some]

/-- A text is read up to its closing quote. -/
theorem readString_printString (s : String) (rest : List Char) :
    ∃ inner, printString s ++ rest = '"' :: inner ∧
      readString inner = some (some s, rest) := by
  refine ⟨s.toList.flatMap printChar ++ '"' :: rest, by simp [printString], ?_⟩
  simp [readString, readPieces_flatMap_printChar, joinPieces?_map_pieceOf]

/-! ## Values -/

theorem exists_digit (n : Nat) (rest : List Char) :
    ∃ c s, Nat.toDigits 10 n ++ rest = c :: s ∧ c.isDigit = true := by
  obtain ⟨c, digits, hcons⟩ := List.exists_cons_of_ne_nil (Nat.toDigits_ne_nil (n := n) (b := 10))
  have hmem : c ∈ Nat.toDigits 10 n := by simp [hcons]
  exact ⟨c, digits ++ rest, by rw [hcons]; rfl, forall_isDigit n c hmem⟩

theorem opens_of_isDigit {c : Char} (h : c.isDigit = true) (s : List Char) : Opens (c :: s) := by
  refine ⟨c, s, rfl, ?_, ?_, ?_⟩
  · simp only [isBlank, Bool.or_eq_false_iff, beq_eq_false_iff_ne]
    refine ⟨⟨⟨?_, ?_⟩, ?_⟩, ?_⟩ <;> (rintro rfl; cases h)
  · rintro rfl
    cases h
  · rintro rfl
    cases h

theorem opens_print (style : Style) (depth : Nat) (json : Json) (rest : List Char) :
    Opens (print style depth json ++ rest) := by
  unfold print
  split
  case h_4 n =>
    obtain ⟨c, s, hcons, hdigit⟩ := exists_digit n rest
    exact hcons ▸ opens_of_isDigit hdigit s
  all_goals exact ⟨_, _, rfl, rfl, by decide, by decide⟩

theorem length_printString_pos (key : String) : 0 < (printString key).length := Nat.succ_pos _

theorem opens_printString (key : String) (rest : List Char) : Opens (printString key ++ rest) :=
  ⟨_, _, rfl, rfl, by decide, by decide⟩

section Steps

variable {style : Style} {depth fuel : Nat} {s t rest : List Char}

theorem readValue_congr (h : skipBlanks s = skipBlanks t) :
    readValue fuel s = readValue fuel t := by
  cases fuel with
  | zero => rfl
  | succ fuel => rw [readValue, readValue, h]

theorem readMember_congr (h : skipBlanks s = skipBlanks t) :
    readMember fuel s = readMember fuel t := by
  cases fuel with
  | zero => rfl
  | succ fuel => rw [readMember, readMember, h]

theorem readValue_of_isDigit {c : Char} (h : c.isDigit = true) (s : List Char) :
    readValue (fuel + 1) (c :: s) = readUnsigned (c :: s) := by
  rw [readValue, (opens_of_isDigit h s).skipBlanks_eq]
  split
  case h_7 =>
    rw [readNumber]
    rintro rest ⟨⟩
    cases h
  all_goals
    next heq =>
    cases heq
    cases h

theorem readValue_number (n : Nat) (h : EndsNumber rest) :
    readValue (fuel + 1) (Nat.toDigits 10 n ++ rest) = some (.number n, rest) := by
  have hread := readUnsigned_toDigits n h
  obtain ⟨c, s, hcons, hdigit⟩ := exists_digit n rest
  rw [hcons] at hread ⊢
  rw [readValue_of_isDigit hdigit, hread]

theorem readValue_foreign (h : EndsNumber rest) :
    readValue (fuel + 1) ('-' :: '0' :: rest) = some (.foreign, rest) := by
  have hread : readUnsigned ('0' :: rest) = some (.number 0, rest) := readUnsigned_toDigits 0 h
  have hnumber : readValue (fuel + 1) ('-' :: '0' :: rest) = readNumber ('-' :: '0' :: rest) := rfl
  rw [hnumber, readNumber, hread]
  rfl

theorem readValue_string (text : String) (rest : List Char) :
    readValue (fuel + 1) (printString text ++ rest) = some (.string text, rest) := by
  obtain ⟨inner, hquoted, hread⟩ := readString_printString text rest
  rw [hquoted, readValue, skipBlanks_cons rfl]
  simp [hread]

theorem readValue_array {item : Json} {items : List Json} (hopens : Opens s)
    (hitem : readValue fuel s = some (item, t)) (hitems : readItems fuel t = some (items, rest)) :
    readValue (fuel + 1) ('[' :: (style.lineBreak depth ++ s)) =
      some (.array (item :: items), rest) := by
  rw [readValue, skipBlanks_cons rfl]
  simp only [skipBlanks_lineBreak, hopens.skipBlanks_eq]
  obtain ⟨c, s, rfl, -, hne, -⟩ := hopens
  split
  · next heq => exact absurd (List.cons.inj heq).1 hne
  · simp [hitem, hitems]

theorem readValue_object {member : Option String × Json} {members : List (Option String × Json)}
    (hopens : Opens s) (hmember : readMember fuel s = some (member, t))
    (hmembers : readMembers fuel t = some (members, rest)) :
    readValue (fuel + 1) ('{' :: (style.lineBreak depth ++ s)) =
      some (ofMembers (member :: members), rest) := by
  rw [readValue, skipBlanks_cons rfl]
  simp only [skipBlanks_lineBreak, hopens.skipBlanks_eq]
  obtain ⟨c, s, rfl, -, -, hne⟩ := hopens
  split
  · next heq => exact absurd (List.cons.inj heq).1 hne
  · simp [hmember, hmembers]

theorem readItems_end :
    readItems (fuel + 1) (style.lineBreak depth ++ ']' :: rest) = some ([], rest) := by
  rw [readItems, skipBlanks_lineBreak, skipBlanks_cons rfl]
  rfl

theorem readItems_comma {item : Json} {items : List Json}
    (hitem : readValue fuel s = some (item, t)) (hitems : readItems fuel t = some (items, rest)) :
    readItems (fuel + 1) (',' :: (style.lineBreak depth ++ s)) = some (item :: items, rest) := by
  rw [readItems, skipBlanks_cons rfl]
  simp [readValue_congr (skipBlanks_lineBreak style depth s), hitem, hitems]

theorem readMembers_end :
    readMembers (fuel + 1) (style.lineBreak depth ++ '}' :: rest) = some ([], rest) := by
  rw [readMembers, skipBlanks_lineBreak, skipBlanks_cons rfl]
  rfl

theorem readMembers_comma {member : Option String × Json}
    {members : List (Option String × Json)} (hmember : readMember fuel s = some (member, t))
    (hmembers : readMembers fuel t = some (members, rest)) :
    readMembers (fuel + 1) (',' :: (style.lineBreak depth ++ s)) =
      some (member :: members, rest) := by
  rw [readMembers, skipBlanks_cons rfl]
  simp [readMember_congr (skipBlanks_lineBreak style depth s), hmember, hmembers]

theorem readMember_colon (key : String) {value : Json}
    (hvalue : readValue fuel s = some (value, rest)) :
    readMember (fuel + 1) (printString key ++ (style.colon ++ s)) =
      some ((some key, value), rest) := by
  obtain ⟨inner, hquoted, hread⟩ := readString_printString key (style.colon ++ s)
  rw [hquoted, readMember, skipBlanks_cons rfl]
  cases style with
  | compact =>
    have hcolon : skipBlanks (Style.compact.colon ++ s) = ':' :: s := skipBlanks_cons rfl s
    simp [hread, hcolon, hvalue]
  | pretty =>
    have hcolon : skipBlanks (Style.pretty.colon ++ s) = ':' :: ' ' :: s := skipBlanks_cons rfl _
    have hspace : readValue fuel (' ' :: s) = readValue fuel s := readValue_congr rfl
    simp [hread, hcolon, hspace, hvalue]

end Steps

/-- What is read back one by one is read back as a list. -/
theorem mapM_map_of_read {α β : Type} {write : α → β} {read : β → Option α} {values : List α}
    (h : ∀ a ∈ values, read (write a) = some a) : (values.map write).mapM read = some values := by
  induction values with
  | nil => rfl
  | cons a values ih =>
    obtain ⟨ha, hvalues⟩ := List.forall_mem_cons.mp h
    simp [ha, ih hvalues]

theorem ofMembers_map_some (members : List (String × Json)) :
    ofMembers (members.map fun member => (some member.1, member.2)) = .object members := by
  rw [ofMembers, mapM_map_of_read]
  exact fun _ _ => rfl

theorem endsNumber_printItems (style : Style) (depth : Nat) (items : List Json)
    (rest : List Char) : EndsNumber (printItems style depth items ++ rest) := by
  cases items with
  | nil =>
    rw [printItems, List.append_assoc]
    exact endsNumber_lineBreak style depth (endsNumber_cons (by decide) rest)
  | cons item items => exact endsNumber_cons (by decide) _

theorem endsNumber_printMembers (style : Style) (depth : Nat) (members : List (String × Json))
    (rest : List Char) : EndsNumber (printMembers style depth members ++ rest) := by
  cases members with
  | nil =>
    rw [printMembers, List.append_assoc]
    exact endsNumber_lineBreak style depth (endsNumber_cons (by decide) rest)
  | cons member members => exact endsNumber_cons (by decide) _

/-! ## Whole texts -/

mutual

/-- By the structure of the value. Each container takes a unit of fuel for itself and one for every
item, and each of these a character of its own in the text. -/
theorem readValue_print (style : Style) : ∀ (json : Json) (depth fuel : Nat) {rest : List Char},
    EndsNumber rest → (print style depth json).length ≤ fuel →
      readValue (fuel + 1) (print style depth json ++ rest) = some (json, rest)
  | .null, _, _, _, _, _ => rfl
  | .bool true, _, _, _, _, _ => rfl
  | .bool false, _, _, _, _, _ => rfl
  | .number n, depth, _, _, hrest, _ => by
    rw [print]
    exact readValue_number n hrest
  | .string text, depth, _, rest, _, _ => by
    rw [print]
    exact readValue_string text rest
  | .array [], _, _, _, _, _ => rfl
  | .array (item :: items), depth, fuel, rest, _, hfuel => by
    simp only [print, List.length_cons, List.length_append] at hfuel
    obtain ⟨fuel, rfl⟩ := Nat.exists_eq_succ_of_ne_zero (n := fuel) (by omega)
    have hitem := readValue_print style item (depth + 1) fuel
      (endsNumber_printItems style depth items rest) (by omega)
    have hitems := readItems_printItems style items depth fuel rest (by omega)
    simp only [print, List.cons_append, List.append_assoc]
    exact readValue_array (opens_print style (depth + 1) item _) hitem hitems
  | .object [], _, _, _, _, _ => rfl
  | .object ((key, value) :: members), depth, fuel, rest, _, hfuel => by
    simp only [print, List.length_cons, List.length_append] at hfuel
    have hquotes := length_printString_pos key
    obtain ⟨fuel, rfl⟩ := Nat.exists_eq_add_of_le' (m := 2) (n := fuel) (by omega)
    have hvalue := readValue_print style value (depth + 1) fuel
      (endsNumber_printMembers style depth members rest) (by omega)
    have hmembers := readMembers_printMembers style members depth (fuel + 1) rest (by omega)
    simp only [print, List.cons_append, List.append_assoc]
    rw [readValue_object (opens_printString key _) (readMember_colon key hvalue) hmembers,
      ← ofMembers_map_some, List.map_cons]
  | .foreign, depth, _, _, hrest, _ => by
    rw [print]
    exact readValue_foreign hrest

theorem readItems_printItems (style : Style) : ∀ (items : List Json) (depth fuel : Nat)
    (rest : List Char), (printItems style depth items).length ≤ fuel →
      readItems (fuel + 1) (printItems style depth items ++ rest) = some (items, rest)
  | [], depth, fuel, rest, _ => by
    rw [printItems, List.append_assoc]
    exact readItems_end
  | item :: items, depth, fuel, rest, hfuel => by
    simp only [printItems, List.length_cons, List.length_append] at hfuel
    obtain ⟨fuel, rfl⟩ := Nat.exists_eq_succ_of_ne_zero (n := fuel) (by omega)
    have hitem := readValue_print style item (depth + 1) fuel
      (endsNumber_printItems style depth items rest) (by omega)
    have hitems := readItems_printItems style items depth fuel rest (by omega)
    simp only [printItems, List.cons_append, List.append_assoc]
    exact readItems_comma hitem hitems

theorem readMembers_printMembers (style : Style) : ∀ (members : List (String × Json))
    (depth fuel : Nat) (rest : List Char), (printMembers style depth members).length ≤ fuel →
      readMembers (fuel + 1) (printMembers style depth members ++ rest) =
        some (members.map fun member => (some member.1, member.2), rest)
  | [], depth, fuel, rest, _ => by
    rw [printMembers, List.append_assoc]
    exact readMembers_end
  | (key, value) :: members, depth, fuel, rest, hfuel => by
    simp only [printMembers, List.length_cons, List.length_append] at hfuel
    have hquotes := length_printString_pos key
    obtain ⟨fuel, rfl⟩ := Nat.exists_eq_add_of_le' (m := 2) (n := fuel) (by omega)
    have hvalue := readValue_print style value (depth + 1) fuel
      (endsNumber_printMembers style depth members rest) (by omega)
    have hmembers := readMembers_printMembers style members depth (fuel + 1) rest (by omega)
    simp only [printMembers, List.cons_append, List.append_assoc]
    exact readMembers_comma (readMember_colon key hvalue) hmembers

end

/-- What was written is read back, in both styles. -/
theorem parse?_render (style : Style) (json : Json) : parse? (json.render style) = some json := by
  have hread := readValue_print style json 0 _ endsNumber_nil (Nat.le_refl _)
  rw [List.append_nil] at hread
  simp [parse?, render, hread, skipBlanks]

end TreeImage.Json
