import EngineBridge.Text.Numeral
import Mathlib.Data.List.Induction

/-! Numbers written in digits and read again. A number has one written form: its digits, without a zero at the
    head unless it is zero itself. Reading digits from the head of a text stops at the first character that is
    none. -/

namespace EngineBridge.Numeral
variable {base : Nat} {ds : List Nat} {rest : List Char} {c : Char} {d n : Nat}

/-! ### Digits -/

theorem digit?_digitChar (hb : base ≤ 16) (hd : d < base) : digit? base d.digitChar = some d := by
  have h16 : d < 16 := by omega
  have hdigit : ∀ d < 16, digit? 16 (Nat.digitChar d) = some d := by decide
  have hd16 := hdigit d h16
  unfold digit? at hd16 ⊢
  obtain ⟨hvalue, -⟩ := Option.filter_eq_some_iff.mp hd16
  exact Option.filter_eq_some_iff.mpr ⟨hvalue, by simpa using hd⟩

/-- A digit of a base up to ten is written in one way. -/
theorem eq_digitChar (hb : base ≤ 10) (hc : digit? base c = some d) : d < base ∧ c = d.digitChar := by
  unfold digit? at hc
  obtain ⟨hvalue, hd⟩ := Option.filter_eq_some_iff.mp hc
  simp only [decide_eq_true_eq] at hd
  refine ⟨hd, ?_⟩
  split at hvalue
  · cases hvalue
    apply Char.toNat_inj.mp
    rw [Nat.toNat_digitChar_of_lt_ten (by omega)]
    omega
  · split at hvalue
    · cases hvalue
      omega
    · split at hvalue
      · cases hvalue
        omega
      · cases hvalue

/-- A text does not go on with a digit. -/
def Halts (base : Nat) (rest : List Char) : Prop := ∀ c ∈ rest.head?, digit? base c = none

theorem Halts.nil : Halts base [] := by
  intro c hc
  cases hc

theorem Halts.cons (hc : digit? base c = none) : Halts base (c :: rest) := by
  intro c' hc'
  cases hc'
  exact hc

theorem leading_of_halts (hrest : Halts base rest) : leading base rest = ([], rest) := by
  cases rest with
  | nil => rfl
  | cons c rest =>
    unfold leading
    rw [hrest c rfl]

theorem leading_digits (hb : base ≤ 16) (hds : ∀ d ∈ ds, d < base) (hrest : Halts base rest) :
    leading base (ds.map Nat.digitChar ++ rest) = (ds, rest) := by
  induction ds with
  | nil => exact leading_of_halts hrest
  | cons d ds ih =>
    rw [List.map_cons, List.cons_append]
    unfold leading
    rw [digit?_digitChar hb (hds d List.mem_cons_self)]
    dsimp only
    rw [ih fun d hd => hds d (List.mem_cons_of_mem _ hd)]

theorem eq_of_leading (hb : base ≤ 10) {cs : List Char} (hcs : leading base cs = (ds, rest)) :
    cs = ds.map Nat.digitChar ++ rest ∧ ∀ d ∈ ds, d < base := by
  induction cs generalizing ds with
  | nil =>
    cases hcs
    simp
  | cons c cs ih =>
    unfold leading at hcs
    split at hcs
    · next d hd =>
      obtain ⟨hlt, rfl⟩ := eq_digitChar hb hd
      rcases hmore : leading base cs with ⟨es, rest'⟩
      rw [hmore] at hcs
      cases hcs
      obtain ⟨rfl, hes⟩ := ih hmore
      exact ⟨rfl, by simpa using ⟨hlt, hes⟩⟩
    · cases hcs
      simp

theorem Halts.of_le {small : Nat} (hle : small ≤ base) (hrest : Halts base rest) : Halts small rest := by
  intro c hc
  have hnone := hrest c hc
  unfold digit? at hnone ⊢
  rw [Option.filter_eq_none_iff] at hnone ⊢
  intro d hd hlt
  exact hnone d hd (by simp at hlt ⊢; omega)

/-- Where decimal digits end among hexadecimal ones there is no point. -/
theorem leading_ten (ds : List Nat) (hrest : Halts 16 rest) (hpoint : rest.head? ≠ some '.') :
    ∃ es rest', leading 10 (ds.map Nat.digitChar ++ rest) = (es, rest') ∧ rest'.head? ≠ some '.' := by
  induction ds with
  | nil => exact ⟨[], rest, leading_of_halts (hrest.of_le (by decide)), hpoint⟩
  | cons d ds ih =>
    rw [List.map_cons, List.cons_append]
    unfold leading
    split
    · next e he =>
      obtain ⟨es, rest', hlead, hpoint'⟩ := ih
      exact ⟨e :: es, rest', by rw [hlead], hpoint'⟩
    · next he => exact ⟨[], _, rfl, by simp⟩

/-! ### Numbers -/

/-- The digits of a number as it is written. -/
structure Canonical (base : Nat) (ds : List Nat) : Prop where
  ne_nil : ds ≠ []
  lt : ∀ d ∈ ds, d < base
  head : ds.head? = some 0 → ds = [0]

theorem ofDigits_append (ds : List Nat) (d : Nat) : ofDigits base (ds ++ [d]) = ofDigits base ds * base + d := by
  unfold ofDigits
  rw [List.foldl_append]
  rfl

theorem Canonical.append (hds : Canonical base ds) (hpos : 0 < ofDigits base ds) (hd : d < base) :
    Canonical base (ds ++ [d]) where
  ne_nil := by simp
  lt := by
    intro e he
    rcases List.mem_append.mp he with he | he
    · exact hds.lt e he
    · cases List.mem_singleton.mp he
      exact hd
  head := by
    intro hhead
    obtain ⟨e, es, rfl⟩ := List.exists_cons_of_ne_nil hds.ne_nil
    rw [hds.head hhead] at hpos
    simp [ofDigits] at hpos

theorem exists_canonical (hb : 1 < base) (n : Nat) : ∃ ds, Canonical base ds ∧ ofDigits base ds = n := by
  induction n using Nat.base_induction base hb with
  | single m hm =>
    refine ⟨[m], ⟨by simp, by simpa using hm, by simp⟩, ?_⟩
    unfold ofDigits
    simp
  | digit m k hk hm ih =>
    obtain ⟨ds, hds, rfl⟩ := ih
    refine ⟨ds ++ [k], hds.append hm hk, ?_⟩
    rw [ofDigits_append, Nat.mul_comm]

/-- Digits without a zero at the head stand for no less than one. -/
theorem ofDigits_pos (hb : 1 < base) (hds : ds ≠ []) (hhead : ds.head? ≠ some 0) : 0 < ofDigits base ds := by
  induction ds using List.reverseRecOn with
  | nil => exact absurd rfl hds
  | append_singleton ds d ih =>
    rw [ofDigits_append]
    cases ds with
    | nil =>
      have hne : d ≠ 0 := by simpa using hhead
      omega
    | cons e ds =>
      have hpos := ih (by simp) (by simpa using hhead)
      have hmul := Nat.mul_pos hpos (show 0 < base by omega)
      omega

theorem text_ofDigits (hb : 1 < base) (hds : Canonical base ds) :
    text base (ofDigits base ds) = ds.map Nat.digitChar := by
  -- from the last digit, as the digits before it stand for the quotient
  induction ds using List.reverseRecOn with
  | nil => exact absurd rfl hds.ne_nil
  | append_singleton ds d ih =>
    have hd : d < base := hds.lt d (by simp)
    by_cases hnil : ds = []
    · subst hnil
      show Nat.toDigits base (0 * base + d) = _
      rw [Nat.zero_mul, Nat.zero_add, Nat.toDigits_of_lt_base hd]
      rfl
    · have hhead : ds.head? ≠ some 0 := by
        intro hzero
        obtain ⟨e, es, rfl⟩ := List.exists_cons_of_ne_nil hnil
        have happend := hds.head hzero
        simp at happend
      have hprefix : Canonical base ds := ⟨hnil, fun e he => hds.lt e (by simp [he]), fun hzero => absurd hzero hhead⟩
      have happend := Nat.toDigits_append_toDigits hb (ofDigits_pos hb hnil hhead) hd
      rw [Nat.toDigits_of_lt_base hd] at happend
      rw [ofDigits_append, List.map_append, ← ih hprefix, Nat.mul_comm]
      exact happend.symm

/-- The digits with which a number is written. -/
theorem exists_text_eq (hb : 1 < base) (n : Nat) :
    ∃ ds, Canonical base ds ∧ ofDigits base ds = n ∧ text base n = ds.map Nat.digitChar := by
  obtain ⟨ds, hds, rfl⟩ := exists_canonical hb n
  exact ⟨ds, hds, rfl, text_ofDigits hb hds⟩

theorem exists_digitChar (hb : 1 < base) (hc : c ∈ text base n) : ∃ d, c = Nat.digitChar d := by
  obtain ⟨ds, -, -, heq⟩ := exists_text_eq hb n
  rw [heq] at hc
  obtain ⟨d, -, rfl⟩ := List.mem_map.mp hc
  exact ⟨d, rfl⟩

/-- What is written of a number is read again, up to where the digits end. -/
theorem leading_text (hb : 1 < base) (hb16 : base ≤ 16) (n : Nat) (hrest : Halts base rest) :
    ∃ ds, leading base (text base n ++ rest) = (ds, rest) ∧ Canonical base ds ∧ ofDigits base ds = n ∧
      ds.length = (text base n).length := by
  obtain ⟨ds, hds, hn, heq⟩ := exists_text_eq hb n
  refine ⟨ds, ?_, hds, hn, ?_⟩
  · rw [heq, leading_digits hb16 hds.lt hrest]
  · rw [heq, List.length_map]

theorem decimal?_text (n : Nat) : decimal? (text 10 n) = some n := by
  obtain ⟨ds, hlead, hds, rfl, -⟩ := leading_text (show 1 < 10 by decide) (by decide) n Halts.nil
  rw [List.append_nil] at hlead
  unfold decimal?
  rw [hlead]
  cases ds with
  | nil => exact absurd rfl hds.ne_nil
  | cons d ds => rfl

end EngineBridge.Numeral
