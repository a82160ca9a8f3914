/-
# `SearchTree.Text.Quoted` — texts between double quotes

    \"  \\          the quote and the backslash
    \n  \r  \t  \0   line feed, carriage return, tabulator, the zero character
    \u{h}            any other control character, `h` its number in hexadecimal

Everything else stands for itself.  Control characters are those below the blank
and the delete character.

A quoted text stands for one text only (`quoted_inj`): `readChar` reads it back,
character by character.
-/

namespace SearchTree.Text

/-- The two characters of a short escape. -/
def short (c : Char) : List Char := ['\x5c', c]

/-- A control character by its number. -/
def byNumber (c : Char) : List Char :=
  ['\x5c', 'u', '\x7b'] ++ Nat.toDigits 16 c.toNat ++ ['\x7d']

def isControl (c : Char) : Bool := c.toNat < 0x20 || c.toNat == 0x7f

/-- How a character is written between quotes. -/
def escape (c : Char) : List Char :=
  if c = '\x22' || c = '\x5c' then short c
  else if c = '\n' then short 'n'
  else if c = '\x0d' then short 'r'
  else if c = '\t' then short 't'
  else if c = '\x00' then short '0'
  else if isControl c then byNumber c
  else [c]

/-- A text between quotes. -/
def quoted (s : String) : String :=
  String.ofList ('\x22' :: (s.toList.flatMap escape ++ ['\x22']))

/-! ## Reading a quoted text -/

/-- The number that a hexadecimal digit stands for. -/
def digitValue (d : Char) : Nat := if d.isDigit then d.toNat - 48 else d.toNat - 87

def hexValue (digits : List Char) : Nat := digits.foldl (fun n d => 16 * n + digitValue d) 0

/-- What an escape stands for, without its backslash, and what follows it. -/
def readEscape : List Char → Option (Char × List Char)
  | [] => none
  | 'n' :: rest => some ('\n', rest)
  | 'r' :: rest => some ('\x0d', rest)
  | 't' :: rest => some ('\t', rest)
  | '0' :: rest => some ('\x00', rest)
  | 'u' :: rest =>
      -- The number stands between braces.
      let digits := rest.tail.takeWhile (· != '\x7d')
      some (Char.ofNat (hexValue digits), rest.tail.drop (digits.length + 1))
  | c :: rest => some (c, rest)

/-- The next character up to the closing quote, and what follows it. -/
def readChar : List Char → Option (Char × List Char)
  | [] | '\x22' :: _ => none
  | '\x5c' :: rest => readEscape rest
  | c :: rest => some (c, rest)

theorem hexValue_append (digits : List Char) (d : Char) :
    hexValue (digits ++ [d]) = 16 * hexValue digits + digitValue d := by
  rw [hexValue, List.foldl_append]
  rfl

/-- A digit can be read, and is not taken for the end of the number. -/
theorem digitChar_readable :
    ∀ d < 16, digitValue (Nat.digitChar d) = d ∧ (Nat.digitChar d != '\x7d') = true := by
  decide

theorem toDigits_readable (n : Nat) :
    hexValue (Nat.toDigits 16 n) = n ∧ ∀ d ∈ Nat.toDigits 16 n, (d != '\x7d') = true := by
  induction n using Nat.strongRecOn with
  | ind n ih =>
      rw [Nat.toDigits_eq_if (by decide)]
      split
      · next hlt =>
          obtain ⟨hvalue, hbrace⟩ := digitChar_readable n hlt
          refine ⟨?_, List.forall_mem_singleton.mpr hbrace⟩
          show 16 * 0 + digitValue n.digitChar = n
          rw [hvalue, Nat.zero_add]
      · next hge =>
          obtain ⟨hvalue, hbrace⟩ := digitChar_readable (n % 16) (Nat.mod_lt n (by decide))
          obtain ⟨hvalues, hbraces⟩ := ih (n / 16) (by omega)
          rw [hexValue_append, hvalues, hvalue, List.forall_mem_append, List.forall_mem_singleton]
          exact ⟨Nat.div_add_mod n 16, hbraces, hbrace⟩

theorem readChar_byNumber (c : Char) (rest : List Char) :
    readChar (byNumber c ++ rest) = some (c, rest) := by
  obtain ⟨hvalue, hbraces⟩ := toDigits_readable c.toNat
  have htake : (Nat.toDigits 16 c.toNat ++ '\x7d' :: rest).takeWhile (· != '\x7d')
      = Nat.toDigits 16 c.toNat := by
    rw [List.takeWhile_append_of_pos hbraces, List.takeWhile_cons_of_neg (by decide),
      List.append_nil]
  have hshape : byNumber c ++ rest
      = '\x5c' :: 'u' :: '\x7b' :: (Nat.toDigits 16 c.toNat ++ '\x7d' :: rest) := by
    simp [byNumber]
  rw [hshape, readChar, readEscape, List.tail_cons, htake, hvalue, Char.ofNat_toNat,
    ← List.drop_drop, List.drop_left]
  rfl

/-- What is written for a character is read as that character. -/
theorem readChar_escape (c : Char) (rest : List Char) :
    readChar (escape c ++ rest) = some (c, rest) := by
  fun_cases escape c with
  | case1 h =>
      rw [Bool.or_eq_true, decide_eq_true_iff, decide_eq_true_iff] at h
      rcases h with rfl | rfl <;> rfl
  | case2 _ h => rw [h]; rfl
  | case3 _ _ h => rw [h]; rfl
  | case4 _ _ _ h => rw [h]; rfl
  | case5 _ _ _ _ h => rw [h]; rfl
  | case6 => exact readChar_byNumber c rest
  | case7 h =>
      rw [Bool.or_eq_true, decide_eq_true_iff, decide_eq_true_iff, not_or] at h
      show readChar (c :: rest) = _
      rw [readChar]
      · exact h.1
      · exact h.2

theorem readChar_cons (c : Char) (s : List Char) :
    readChar ((c :: s).flatMap escape ++ ['\x22']) = some (c, s.flatMap escape ++ ['\x22']) := by
  rw [List.flatMap_cons, List.append_assoc, readChar_escape]

theorem eq_of_flatMap_escape {s t : List Char}
    (h : s.flatMap escape ++ ['\x22'] = t.flatMap escape ++ ['\x22']) : s = t := by
  have hread := congrArg readChar h
  induction s generalizing t with
  | nil =>
      cases t with
      | nil => rfl
      | cons d t => cases hread.trans (readChar_cons d t)
  | cons c s ih =>
      rw [readChar_cons] at hread
      cases t with
      | nil => cases hread
      | cons d t =>
          rw [readChar_cons] at hread
          obtain ⟨rfl, hrest⟩ := Prod.mk.inj (Option.some.inj hread)
          rw [ih hrest (congrArg readChar hrest)]

/-- Different texts are written differently. -/
theorem quoted_inj {s t : String} : quoted s = quoted t ↔ s = t := by
  constructor
  · intro h
    have hchars := List.tail_eq_of_cons_eq (String.ofList_inj.mp h)
    exact String.toList_inj.mp (eq_of_flatMap_escape hchars)
  · rintro rfl
    rfl

/-- A line feed is not taken for a backslash and a letter. -/
example : quoted "\n" = "\"\\n\"" ∧ quoted "\\n" = "\"\\\\n\"" := by decide

end SearchTree.Text
