import Mathlib.Data.Nat.Digits.Defs
import Temps.Lib.Wire

namespace Temps.Lib.TextCode

open Wire List

/-- A number and the character behind it. -/
def decimal (stop : Char) (hstop : stop.isDigit = false) : Code ℕ Char where
  put n := Nat.toDigits 10 n ++ [stop]
  get text :=
    let rest := text.dropWhile Char.isDigit
    if rest.head? = some stop then
      some (Nat.ofDigitChars 10 (text.takeWhile Char.isDigit) 0, rest.tail)
    else none
  get_put n rest := by
    have hdigit (c : Char) (hc : c ∈ Nat.toDigits 10 n) : c.isDigit :=
      Nat.isDigit_of_mem_toDigits (by decide) (by decide) hc
    have hstop' : ¬ stop.isDigit := by simp [hstop]
    rw [append_assoc, singleton_append, takeWhile_append_of_pos hdigit,
      dropWhile_append_of_pos hdigit, takeWhile_cons_of_neg hstop', dropWhile_cons_of_neg hstop',
      append_nil, Nat.ofDigitChars_ten_toDigits]
    exact if_pos rfl

def signed (stop : Char) (hstop : stop.isDigit = false) : Code ℤ Char where
  put i := (if i < 0 then ['-'] else []) ++ (decimal stop hstop).put i.natAbs
  get text :=
    if text.head? = some '-' then
      ((decimal stop hstop).get text.tail).map fun r ↦ (-(r.1 : ℤ), r.2)
    else ((decimal stop hstop).get text).map fun r ↦ ((r.1 : ℤ), r.2)
  get_put i rest := by
    have hread := (decimal stop hstop).get_put i.natAbs rest
    rw [append_assoc]
    by_cases hneg : i < 0
    · simp [hneg, hread, abs_of_neg hneg]
    · obtain ⟨first, more, hput⟩ :=
        exists_cons_of_ne_nil (Nat.toDigits_ne_nil (n := i.natAbs) (b := 10))
      have hdigit : first.isDigit :=
        Nat.isDigit_of_mem_toDigits (by decide) (by decide) (hput ▸ mem_cons_self)
      have hhead : ((decimal stop hstop).put i.natAbs ++ rest).head? = some first := by
        simp only [decimal, hput, cons_append, head?_cons]
      have hminus : first ≠ '-' := by rintro rfl; cases hdigit
      simp [hneg, hhead, hminus, hread, not_lt.mp hneg]

def hexDigits : List Char := "0123456789abcdef".toList

def escape (c : Char) : List Char :=
  match c with
  | '"' | '\\' => ['\\', c]
  | '\x08' => ['\\', 'b']
  | '\x0c' => ['\\', 'f']
  | '\n' => ['\\', 'n']
  | '\r' => ['\\', 'r']
  | '\t' => ['\\', 't']
  | c =>
    if c.toNat < 32 then
      ['\\', 'u', '0', '0', hexDigits.getD (c.toNat / 16) '0', hexDigits.getD (c.toNat % 16) '0']
    else [c]

def unescape : Char → Char
  | 'b' => '\x08'
  | 'f' => '\x0c'
  | 'n' => '\n'
  | 'r' => '\r'
  | 't' => '\t'
  | c => c

def unquote : List Char → Option (List Char × List Char)
  | [] => none
  | c :: text =>
    if c = '"' then some ([], text)
    else if c = '\\' then
      match text with
      | 'u' :: _ :: _ :: high :: low :: text =>
        (unquote text).map fun r ↦
          (Char.ofNat (16 * hexDigits.idxOf high + hexDigits.idxOf low) :: r.1, r.2)
      | e :: text => (unquote text).map fun r ↦ (unescape e :: r.1, r.2)
      | [] => none
    else (unquote text).map fun r ↦ (c :: r.1, r.2)

theorem unquote_escape (c : Char) (text : List Char) :
    unquote (escape c ++ text) = (unquote text).map fun r ↦ (c :: r.1, r.2) := by
  have hhex : ∀ n : Fin 32, 16 * hexDigits.idxOf (hexDigits.getD (n / 16) '0') +
      hexDigits.idxOf (hexDigits.getD (n % 16) '0') = n.val := by decide +kernel
  unfold escape
  split
  case h_8 hquote hback _ _ _ _ _ =>
    split
    case isTrue hc =>
      have hread (high low : Char) : unquote ('\\' :: 'u' :: '0' :: '0' :: high :: low :: text) =
          (unquote text).map fun r ↦
            (Char.ofNat (16 * hexDigits.idxOf high + hexDigits.idxOf low) :: r.1, r.2) := rfl
      simp only [cons_append, nil_append, hread, hhex ⟨c.toNat, hc⟩, Char.ofNat_toNat]
    case isFalse =>
      rw [singleton_append, unquote.eq_def]
      dsimp only
      rw [if_neg hquote, if_neg hback]
  all_goals rfl

def quoted : Code (List Char) Char where
  put text := '"' :: (text.flatMap escape ++ ['"'])
  get text := if text.head? = some '"' then unquote text.tail else none
  get_put text rest := by
    rw [cons_append, head?_cons, if_pos rfl, tail_cons, append_assoc]
    induction text with
    | nil =>
      rw [flatMap_nil, nil_append, singleton_append, unquote.eq_def]
      exact if_pos rfl
    | cons c text ih => rw [flatMap_cons, append_assoc, unquote_escape, ih, Option.map_some]

end Temps.Lib.TextCode
