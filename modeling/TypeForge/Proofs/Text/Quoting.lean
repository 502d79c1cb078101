import Mathlib.Tactic.SplitIfs
import TypeForge.Text.Quoted

/-!
# Quoted text is readable

Between quotes a character is written as itself or as an escape, and no written character is the
beginning of another: a reader that goes through the text once, with what it has seen of an escape
as its only state, gets back every character and finds the closing quote.  So two quoted texts are
the same only if what they quote is, whatever follows them, and no line break stands in them.
-/

namespace TypeForge.Text

/-! ## The reader -/

/-- The value of a hexadecimal digit. -/
def digitValue (c : Char) : Nat :=
  if c.isDigit then c.toNat - '0'.toNat else c.toNat - 'a'.toNat + 10

/-- The character that a letter behind a backslash stands for. -/
def shortEscape (c : Char) : Char :=
  if c = '0' then '\x00' else if c = 't' then '\t' else if c = 'n' then '\n'
  else if c = 'r' then '\r' else c

/-- Where a reader of quoted text is: at a character of its own, behind a backslash, in front of
the brace of a code point, or in its digits, which make up the given number so far. -/
inductive QuotedPlace where
  | plain | escape | opening | code (value : Nat)

/-- The text up to the closing quote and what is behind the quote. -/
def scanQuoted (quote : Char) : QuotedPlace → List Char → Option (List Char × List Char)
  | _, [] => none
  | .plain, c :: cs =>
    if c = quote then some ([], cs)
    else if c = '\\' then scanQuoted quote .escape cs
    else (scanQuoted quote .plain cs).map (Prod.map (c :: ·) id)
  | .escape, c :: cs =>
    if c = 'u' then scanQuoted quote .opening cs
    else (scanQuoted quote .plain cs).map (Prod.map (shortEscape c :: ·) id)
  | .opening, _ :: cs => scanQuoted quote (.code 0) cs
  | .code value, c :: cs =>
    if c = '\x7d' then (scanQuoted quote .plain cs).map (Prod.map (Char.ofNat value :: ·) id)
    else scanQuoted quote (.code (16 * value + digitValue c)) cs

/-- The text between double quotes, if a quote stands first and another closes it at the end. -/
def unquote : List Char → Option String
  | [] => none
  | quote :: cs =>
    if quote = '\x22' then
      match scanQuoted quote .plain cs with
      | some (text, []) => some (String.ofList text)
      | _ => none
    else none

/-! ## Code points -/

theorem digitValue_digitChar {k : Nat} (h : k < 16) : digitValue k.digitChar = k := by
  have hall : ∀ k < 16, digitValue (Nat.digitChar k) = k := by decide
  exact hall k h

/-- The digits of a number are those of numbers below sixteen, and make up the number. -/
theorem exists_digits (n : Nat) :
    ∃ ks : List Nat, (∀ k ∈ ks, k < 16) ∧ Nat.toDigits 16 n = ks.map Nat.digitChar ∧
      ks.foldl (fun value k => 16 * value + k) 0 = n := by
  induction n using Nat.strongRecOn with
  | ind n ih =>
    by_cases hn : n < 16
    · exact ⟨[n], by simpa using hn, by simpa using Nat.toDigits_of_lt_base hn, by simp⟩
    · obtain ⟨ks, hks, hdigits, hvalue⟩ := ih (n / 16) (by omega)
      refine ⟨ks ++ [n % 16], ?_, ?_, ?_⟩
      · intro k hk
        obtain hk | hk := List.mem_append.1 hk
        · exact hks k hk
        · rw [List.mem_singleton.1 hk]
          exact Nat.mod_lt n (by decide)
      · rw [Nat.toDigits_of_base_le (by decide) (by omega), hdigits, List.map_append]
        rfl
      · rw [List.foldl_append, hvalue]
        exact Nat.div_add_mod n 16

theorem digitChar_ne {k : Nat} (hk : k < 16) : k.digitChar ≠ '\x7d' ∧ k.digitChar ≠ '\n' := by
  have hall : ∀ k < 16, Nat.digitChar k ≠ '\x7d' ∧ Nat.digitChar k ≠ '\n' := by decide
  exact hall k hk

/-- Digits add to the number read so far, up to the brace that ends them. -/
theorem scanQuoted_digits (quote : Char) (rest : List Char) {ks : List Nat} (h : ∀ k ∈ ks, k < 16)
    (value : Nat) :
    scanQuoted quote (.code value) (ks.map Nat.digitChar ++ '\x7d' :: rest) =
      (scanQuoted quote .plain rest).map
        (Prod.map (Char.ofNat (ks.foldl (fun value k => 16 * value + k) value) :: ·) id) := by
  induction ks generalizing value with
  | nil => rw [List.map_nil, List.nil_append, scanQuoted, if_pos rfl, List.foldl_nil]
  | cons k ks ih =>
    have hk := h k List.mem_cons_self
    rw [List.map_cons, List.cons_append, scanQuoted, if_neg (digitChar_ne hk).1,
      digitValue_digitChar hk, ih (fun k hk => h k (List.mem_cons_of_mem _ hk)), List.foldl_cons]

/-! ## Characters and texts -/

section

variable {quote : Char} (hquote : quote = '\x22' ∨ quote = '\x27')
include hquote

/-- The three forms of a written character: a letter behind a backslash, a code point, itself. -/
theorem escaped_cases (c : Char) :
    (∃ letter, letter ≠ 'u' ∧ letter ≠ '\n' ∧ shortEscape letter = c ∧
        escaped quote c = ['\\', letter]) ∨
      escaped quote c = codePoint c ∨
      (c ≠ quote ∧ c ≠ '\\' ∧ c ≠ '\n' ∧ escaped quote c = [c]) := by
  unfold escaped
  split_ifs with hself hzero htab hnewline hreturn hcode
  · -- the quote and the backslash stand for themselves behind a backslash
    have hc : c ≠ 'u' ∧ c ≠ '\n' ∧ shortEscape c = c := by
      rcases hself with rfl | rfl
      · rcases hquote with rfl | rfl <;> decide
      · decide
    exact .inl ⟨c, hc.1, hc.2.1, hc.2.2, rfl⟩
  · exact .inl ⟨'0', by decide, by decide, hzero.symm, rfl⟩
  · exact .inl ⟨'t', by decide, by decide, htab.symm, rfl⟩
  · exact .inl ⟨'n', by decide, by decide, hnewline.symm, rfl⟩
  · exact .inl ⟨'r', by decide, by decide, hreturn.symm, rfl⟩
  · exact .inr (.inl rfl)
  · rw [not_or] at hself
    exact .inr (.inr ⟨hself.1, hself.2, hnewline, rfl⟩)

/-- **A written character is read as that character**, and nothing behind it is touched. -/
theorem scanQuoted_escaped (c : Char) (rest : List Char) :
    scanQuoted quote .plain (escaped quote c ++ rest) =
      (scanQuoted quote .plain rest).map (Prod.map (c :: ·) id) := by
  have hbackslash : '\\' ≠ quote := by
    rcases hquote with rfl | rfl <;> decide
  obtain ⟨letter, hu, -, hstands, heq⟩ | heq | ⟨hne, hplain, -, heq⟩ := escaped_cases hquote c
  · rw [heq, List.cons_append, List.singleton_append, scanQuoted, if_neg hbackslash, if_pos rfl,
      scanQuoted, if_neg hu, hstands]
  · obtain ⟨ks, hks, hdigits, hvalue⟩ := exists_digits c.toNat
    rw [heq, codePoint, hdigits]
    simp only [List.cons_append, List.nil_append, List.append_assoc]
    rw [scanQuoted, if_neg hbackslash, if_pos rfl, scanQuoted, if_pos rfl, scanQuoted,
      scanQuoted_digits quote rest hks, hvalue, Char.ofNat_toNat]
  · rw [heq, List.singleton_append, scanQuoted, if_neg hne, if_neg hplain]

/-- **A written text is read up to the closing quote.** -/
theorem scanQuoted_flatMap (cs rest : List Char) :
    scanQuoted quote .plain (cs.flatMap (escaped quote) ++ quote :: rest) = some (cs, rest) := by
  induction cs with
  | nil => rw [List.flatMap_nil, List.nil_append, scanQuoted, if_pos rfl]
  | cons c cs ih =>
    rw [List.flatMap_cons, List.append_assoc, scanQuoted_escaped hquote, ih]
    rfl

/-- A quoted text can be told from what is behind it. -/
theorem quotedWith_append_inj {cs ds rest rest' : List Char}
    (h : quotedWith quote cs ++ rest = quotedWith quote ds ++ rest') : cs = ds ∧ rest = rest' := by
  simp only [quotedWith, List.append_assoc, List.cons_append, List.nil_append, List.cons.injEq,
    true_and] at h
  have hread := scanQuoted_flatMap hquote cs rest
  rw [h, scanQuoted_flatMap hquote] at hread
  exact ⟨(congrArg Prod.fst (Option.some.inj hread)).symm, (congrArg Prod.snd (Option.some.inj hread)).symm⟩

omit hquote in
theorem newline_notMem_codePoint (c : Char) : '\n' ∉ codePoint c := by
  obtain ⟨ks, hks, hdigits, -⟩ := exists_digits c.toNat
  rw [codePoint, hdigits]
  simp only [List.mem_append, List.mem_map, not_or]
  refine ⟨⟨by decide, ?_⟩, by decide⟩
  rintro ⟨k, hk, hnewline⟩
  exact (digitChar_ne (hks k hk)).2 hnewline

theorem newline_notMem_escaped (c : Char) : '\n' ∉ escaped quote c := by
  obtain ⟨letter, -, hnewline, -, heq⟩ | heq | ⟨-, -, hnewline, heq⟩ := escaped_cases hquote c
  · simpa [heq] using hnewline.symm
  · exact heq ▸ newline_notMem_codePoint c
  · simpa [heq] using hnewline.symm

end

theorem unquote_quoted (s : String) : unquote (quoted s).toList = some s := by
  rw [quoted, String.toList_ofList, quotedWith, List.append_assoc, List.singleton_append, unquote,
    if_pos rfl, scanQuoted_flatMap (.inl rfl)]
  exact congrArg some String.ofList_toList

/-- **A quoted text stands on one line.** -/
theorem newline_notMem_quoted (s : String) : '\n' ∉ (quoted s).toList := by
  rw [quoted, String.toList_ofList, quotedWith]
  simp only [List.mem_append, List.mem_flatMap, not_or, not_exists, not_and]
  exact ⟨⟨by decide, fun c _ => newline_notMem_escaped (.inl rfl) c⟩, by decide⟩

end TypeForge.Text
