/-
Quoted text, as messages show texts and byte strings.

The quote is the single one, unless the content has single quotes and no double ones. Inside, the quote and the
backslash are escaped by a backslash, tab, newline and carriage return have their letters, printable characters stand for
themselves, and all others are written by number in two, four or eight hexadecimal digits.

Main statement: `eq_of_quote_mem_escape`, between the quotes the quote shows only where the content has it, and there a
backslash stands before it.
-/
import MeteredStore.Bytes
import MeteredStore.Text.Printable

namespace MeteredStore.Text

/-- lower-case hexadecimal digit -/
def hexDigit (n : Nat) : Char :=
  if n < 10 then Char.ofNat (48 + n) else Char.ofNat (87 + n)

/-- the last `width` hexadecimal digits of a number -/
def hexDigits : Nat → Nat → List Char
  | 0, _ => []
  | width + 1, n => hexDigits width (n / 16) ++ [hexDigit (n % 16)]

/-- a character by its number -/
def escapeNumber (n : Nat) : List Char :=
  if n < 0x100 then '\\' :: 'x' :: hexDigits 2 n
  else if n < 0x10000 then '\\' :: 'u' :: hexDigits 4 n
  else '\\' :: 'U' :: hexDigits 8 n

/-- a character inside quotes; `plain` tells which characters stand for themselves -/
def escape (plain : Char → Bool) (quote c : Char) : List Char :=
  if c = quote ∨ c = '\\' then ['\\', c]
  else if c = '\t' then ['\\', 't']
  else if c = '\n' then ['\\', 'n']
  else if c = '\r' then ['\\', 'r']
  else if plain c then [c]
  else escapeNumber c.toNat

/-- the quote for a content -/
def quoteFor (content : List Char) : Char :=
  if '\'' ∈ content ∧ '"' ∉ content then '"' else '\''

def quoted (plain : Char → Bool) (content : List Char) : String :=
  let quote := quoteFor content
  String.ofList (quote :: content.flatMap (escape plain quote) ++ [quote])

/-- a text between quotes -/
def quote (s : String) : String := quoted isPrintable s.toList

/-- a byte string between quotes behind a `b`: bytes are shown as the characters of their numbers, as far as these are
ASCII -/
def quoteBytes (b : Bytes) : String :=
  "b" ++ quoted (fun c => isPrintable c && c.toNat < 0x80) (b.map fun x => Char.ofNat x.toNat)

theorem hexDigit_ne_quote {q : Char} (h : q = '\'' ∨ q = '"') (n : Nat) : hexDigit (n % 16) ≠ q := by
  have k : ∀ m < 16, hexDigit m ≠ '\'' ∧ hexDigit m ≠ '"' := by decide
  have hm := k (n % 16) (Nat.mod_lt n (by decide))
  rcases h with rfl | rfl
  · exact hm.1
  · exact hm.2

theorem quote_not_mem_hexDigits {q : Char} (h : q = '\'' ∨ q = '"') (width n : Nat) : q ∉ hexDigits width n := by
  induction width generalizing n with
  | zero => simp [hexDigits]
  | succ width ih =>
    intro hq
    rcases List.mem_append.mp hq with hq | hq
    · exact ih _ hq
    · exact hexDigit_ne_quote h n (List.mem_singleton.mp hq).symm

theorem eq_of_quote_mem_escape {plain : Char → Bool} {q c : Char} (h : q = '\'' ∨ q = '"')
    (hq : q ∈ escape plain q c) : c = q ∧ escape plain q c = ['\\', q] := by
  have hb : q ≠ '\\' ∧ q ≠ 't' ∧ q ≠ 'n' ∧ q ≠ 'r' ∧ q ≠ 'x' ∧ q ≠ 'u' ∧ q ≠ 'U' := by
    rcases h with rfl | rfl <;> decide
  have hd := quote_not_mem_hexDigits h
  unfold escape at hq ⊢
  split at hq
  · next hc =>
    rcases hc with rfl | rfl
    · simp
    · simp [hb.1] at hq
  · next hc =>
    split at hq
    · simp [hb] at hq
    · split at hq
      · simp [hb] at hq
      · split at hq
        · simp [hb] at hq
        · split at hq
          · simp only [List.mem_singleton] at hq
            exact absurd (.inl hq.symm) hc
          · unfold escapeNumber at hq
            split at hq
            · simp [hb, hd] at hq
            · split at hq <;> simp [hb, hd] at hq

end MeteredStore.Text
