import EngineBridge.Text.Utf8
import Mathlib.Tactic.ByContra

/-! Text in bytes and back. Every text is read back from its bytes. A byte string that is read without a single
    U+FFFD is what its text is written as, so no two such byte strings have the same text. Case is a matter of
    bytes below 0x80, which stand in no longer sequence, so folding it before reading or after makes no
    difference. -/

namespace EngineBridge.Utf8

variable {b : UInt8} {bs : Bytes} {l : Lead} {c : Char} {n : Nat}

/-! ### The bytes of a character -/

theorem toNat_ofNat (h : n.isValidChar) : (Char.ofNat n).toNat = n := by
  rw [Char.ofNat, dif_pos h]
  rfl

/-- The byte for the last six bits of a number, which goes on with a sequence. -/
def trail (n : Nat) : UInt8 := UInt8.ofNat (n % 64 + 0x80)

theorem toNat_trail (n : Nat) : (trail n).toNat = n % 64 + 0x80 :=
  UInt8.toNat_ofNat_of_lt' (show n % 64 + 0x80 < 256 by omega)

theorem encodeChar_of_le (h : c.toNat ≤ 0x7F) : String.utf8EncodeChar c = [UInt8.ofNat c.toNat] := if_pos h

theorem encodeChar_two (h : 0x80 ≤ c.toNat) (h' : c.toNat ≤ 0x7FF) :
    String.utf8EncodeChar c = [UInt8.ofNat (c.toNat / 64 + 0xC0), trail c.toNat] := by
  unfold String.utf8EncodeChar
  rw [Char.toNat] at h h'
  rw [if_neg (by omega), if_pos h', Nat.mod_eq_of_lt (by omega : c.val.toNat / 64 < 32)]
  rfl

theorem encodeChar_three (h : 0x800 ≤ c.toNat) (h' : c.toNat ≤ 0xFFFF) :
    String.utf8EncodeChar c =
      [UInt8.ofNat (c.toNat / 4096 + 0xE0), trail (c.toNat / 64), trail c.toNat] := by
  unfold String.utf8EncodeChar
  rw [Char.toNat] at h h'
  rw [if_neg (by omega), if_neg (by omega), if_pos h', Nat.mod_eq_of_lt (by omega : c.val.toNat / 4096 < 16)]
  rfl

theorem encodeChar_four (h : 0x10000 ≤ c.toNat) :
    String.utf8EncodeChar c =
      [UInt8.ofNat (c.toNat / 262144 + 0xF0), trail (c.toNat / 4096), trail (c.toNat / 64), trail c.toNat] := by
  have hmax : c.toNat ≤ 0x10FFFF := by
    have hvalid := c.valid
    simp only [UInt32.isValidChar, Nat.isValidChar] at hvalid
    unfold Char.toNat
    omega
  unfold String.utf8EncodeChar
  rw [Char.toNat] at h hmax
  rw [if_neg (by omega), if_neg (by omega), if_neg (by omega),
    Nat.mod_eq_of_lt (by omega : c.val.toNat / 262144 < 8)]
  rfl

/-! ### Sequences of several bytes -/

namespace Lead

/-- A byte may come next while a sequence is open. -/
def Admits (l : Lead) (b : UInt8) : Prop := l.low ≤ b ∧ b ≤ l.high

/-- A sequence that is still open after a further byte. -/
def next (l : Lead) (b : UInt8) : Lead := ⟨l.bits * 64 + (b.toNat - 0x80), l.more - 1, 0x80, 0xBF⟩

theorem bits_next (l : Lead) (b : UInt8) : (l.next b).bits = l.bits * 64 + (b.toNat - 0x80) := rfl
theorem more_next (l : Lead) (b : UInt8) : (l.next b).more = l.more - 1 := rfl

theorem admits_iff : l.Admits b ↔ l.low.toNat ≤ b.toNat ∧ b.toNat ≤ l.high.toNat :=
  and_congr UInt8.le_iff_toNat_le UInt8.le_iff_toNat_le

theorem admits_next {b' : UInt8} : (l.next b).Admits b' ↔ 0x80 ≤ b'.toNat ∧ b'.toNat ≤ 0xBF :=
  admits_iff

theorem admits_next_trail (n : Nat) : (l.next b).Admits (trail n) := by
  rw [admits_next, toNat_trail]
  omega

theorem bits_next_trail (l : Lead) (n : Nat) : (l.next (trail n)).bits = l.bits * 64 + n % 64 := by
  rw [bits_next, toNat_trail, Nat.add_sub_cancel]

/-- The bytes that complete an open sequence, with the character that it then stands for. -/
inductive Completes : Lead → Bytes → Char → Prop
  | last {l : Lead} {b : UInt8} : l.more = 1 → l.Admits b → Completes l [b] (Char.ofNat ((l.next b).bits))
  | more {l : Lead} {b : UInt8} {bs : Bytes} {c : Char} : 1 < l.more → l.Admits b → Completes (l.next b) bs c →
      Completes l (b :: bs) c

theorem of?_two (h : 0xC2 ≤ b.toNat) (h' : b.toNat ≤ 0xDF) :
    of? b = some ⟨b.toNat - 0xC0, 1, 0x80, 0xBF⟩ :=
  if_pos ⟨UInt8.le_iff_toNat_le.mpr h, UInt8.le_iff_toNat_le.mpr h'⟩

theorem of?_three (h : 0xE0 ≤ b.toNat) (h' : b.toNat ≤ 0xEF) : of? b =
    some ⟨b.toNat - 0xE0, 2, if b = 0xE0 then 0xA0 else 0x80, if b = 0xED then 0x9F else 0xBF⟩ := by
  unfold of?
  rw [if_neg (by simp only [UInt8.le_iff_toNat_le, UInt8.reduceToNat]; omega)]
  by_cases hlow : b = 0xE0
  · subst hlow
    rfl
  · by_cases hhigh : b = 0xED
    · subst hhigh
      rfl
    · rw [if_neg hlow, if_neg hhigh, if_pos, if_neg hlow, if_neg hhigh]
      simp only [UInt8.le_iff_toNat_le, ← UInt8.toNat_inj, UInt8.reduceToNat] at *
      omega

theorem of?_four (h : 0xF0 ≤ b.toNat) (h' : b.toNat ≤ 0xF4) : of? b =
    some ⟨b.toNat - 0xF0, 3, if b = 0xF0 then 0x90 else 0x80, if b = 0xF4 then 0x8F else 0xBF⟩ := by
  have hne (x : UInt8) (hx : x < 0xF0) : b ≠ x := by
    rintro rfl
    simp only [UInt8.lt_iff_toNat_lt, UInt8.reduceToNat] at hx
    omega
  unfold of?
  rw [if_neg (by simp only [UInt8.le_iff_toNat_le, UInt8.reduceToNat]; omega), if_neg (hne _ (by decide)),
    if_neg (hne _ (by decide)), if_neg (by simp only [UInt8.le_iff_toNat_le, UInt8.reduceToNat]; omega)]
  by_cases hlow : b = 0xF0
  · subst hlow
    rfl
  · by_cases hhigh : b = 0xF4
    · subst hhigh
      rfl
    · rw [if_neg hlow, if_pos, if_neg hlow, if_neg hhigh]
      simp only [UInt8.le_iff_toNat_le, ← UInt8.toNat_inj, UInt8.reduceToNat] at *
      omega

theorem of?_none (h : b.toNat < 0xC2 ∨ 0xF4 < b.toNat) : of? b = none := by
  unfold of?
  simp only [UInt8.le_iff_toNat_le, ← UInt8.toNat_inj, UInt8.reduceToNat]
  repeat rw [if_neg (by omega)]

/-- What a byte announces, by the number of bytes that have to follow. -/
theorem cases_of? (hb : of? b = some l) :
    (0xC2 ≤ b.toNat ∧ b.toNat ≤ 0xDF ∧ l = ⟨b.toNat - 0xC0, 1, 0x80, 0xBF⟩) ∨
    (0xE0 ≤ b.toNat ∧ b.toNat ≤ 0xEF ∧ l = ⟨b.toNat - 0xE0, 2, if b = 0xE0 then 0xA0 else 0x80,
      if b = 0xED then 0x9F else 0xBF⟩) ∨
    (0xF0 ≤ b.toNat ∧ b.toNat ≤ 0xF4 ∧ l = ⟨b.toNat - 0xF0, 3, if b = 0xF0 then 0x90 else 0x80,
      if b = 0xF4 then 0x8F else 0xBF⟩) := by
  by_cases hnone : b.toNat < 0xC2 ∨ 0xF4 < b.toNat
  · cases (of?_none hnone).symm.trans hb
  by_cases htwo : b.toNat ≤ 0xDF
  · exact .inl ⟨by omega, htwo, Option.some.inj (hb.symm.trans (of?_two (by omega) htwo))⟩
  by_cases hthree : b.toNat ≤ 0xEF
  · exact .inr (.inl ⟨by omega, hthree, Option.some.inj (hb.symm.trans (of?_three (by omega) hthree))⟩)
  · exact .inr (.inr ⟨by omega, by omega, Option.some.inj (hb.symm.trans (of?_four (by omega) (by omega)))⟩)

end Lead

theorem Lead.Completes.eq_last (h : l.Completes bs c) (hl : l.more = 1) :
    ∃ b n, bs = [b] ∧ l.Admits b ∧ n = (l.next b).bits ∧ (n.isValidChar → c.toNat = n) := by
  cases h with
  | last _ hb => exact ⟨_, _, rfl, hb, rfl, toNat_ofNat⟩
  | more hmore => omega

theorem Lead.Completes.eq_more (h : l.Completes bs c) (hl : 1 < l.more) :
    ∃ b bs', bs = b :: bs' ∧ l.Admits b ∧ (l.next b).Completes bs' c := by
  cases h with
  | last hone => omega
  | more _ hb h => exact ⟨_, _, rfl, hb, h⟩

/-- A sequence that has been completed is what its character is written as. -/
theorem Lead.encodeChar_of_completes (hb : Lead.of? b = some l) (hbs : l.Completes bs c) :
    String.utf8EncodeChar c = b :: bs := by
  rcases cases_of? hb with ⟨hge, hle, hl⟩ | ⟨hge, hle, hl⟩ | ⟨hge, hle, hl⟩
  · obtain ⟨b₁, n, rfl, h₁, hn, hc⟩ := hbs.eq_last (by rw [hl])
    simp only [admits_iff, bits_next, hl, UInt8.reduceToNat] at h₁ hn
    have hc := hc (by unfold Nat.isValidChar; omega)
    rw [encodeChar_two (by omega) (by omega), hc]
    simp only [List.cons.injEq, ← UInt8.toNat_inj, UInt8.toNat_ofNat', toNat_trail, and_true]
    omega
  · obtain ⟨b₁, bs, rfl, h₁, hbs⟩ := hbs.eq_more (by simp [hl])
    obtain ⟨b₂, n, rfl, h₂, hn, hc⟩ := hbs.eq_last (by simp [hl, more_next])
    rw [admits_next] at h₂
    simp only [admits_iff, bits_next, hl, ← UInt8.toNat_inj, apply_ite UInt8.toNat, UInt8.reduceToNat] at h₁ hn
    have h₁ : (0x80 ≤ b₁.toNat ∧ b₁.toNat ≤ 0xBF) ∧ (b.toNat = 0xE0 → 0xA0 ≤ b₁.toNat) ∧
        (b.toNat = 0xED → b₁.toNat ≤ 0x9F) := by
      split at h₁ <;> split at h₁ <;> omega
    have hc := hc (by unfold Nat.isValidChar; omega)
    rw [encodeChar_three (by omega) (by omega), hc]
    simp only [List.cons.injEq, ← UInt8.toNat_inj, UInt8.toNat_ofNat', toNat_trail, and_true]
    omega
  · obtain ⟨b₁, bs, rfl, h₁, hbs⟩ := hbs.eq_more (by simp [hl])
    obtain ⟨b₂, bs, rfl, h₂, hbs⟩ := hbs.eq_more (by simp [hl, more_next])
    obtain ⟨b₃, n, rfl, h₃, hn, hc⟩ := hbs.eq_last (by simp [hl, more_next])
    rw [admits_next] at h₂ h₃
    simp only [admits_iff, bits_next, hl, ← UInt8.toNat_inj, apply_ite UInt8.toNat, UInt8.reduceToNat] at h₁ hn
    have h₁ : (0x80 ≤ b₁.toNat ∧ b₁.toNat ≤ 0xBF) ∧ (b.toNat = 0xF0 → 0x90 ≤ b₁.toNat) ∧
        (b.toNat = 0xF4 → b₁.toNat ≤ 0x8F) := by
      split at h₁ <;> split at h₁ <;> omega
    have hc := hc (by unfold Nat.isValidChar; omega)
    rw [encodeChar_four (by omega), hc]
    simp only [List.cons.injEq, ← UInt8.toNat_inj, UInt8.toNat_ofNat', toNat_trail, and_true]
    omega

theorem Lead.Completes.last_of_eq (hl : l.more = 1) (hb : l.Admits b) (hc : (l.next b).bits = c.toNat) :
    l.Completes [b] c := by
  rw [← c.ofNat_toNat, ← hc]
  exact .last hl hb

theorem Lead.le_of_of? (hb : Lead.of? b = some l) : 0x80 ≤ b.toNat := by
  rcases cases_of? hb with h | h | h <;> omega

theorem Lead.more_of_of? (hb : Lead.of? b = some l) : 0 < l.more := by
  rcases cases_of? hb with ⟨-, -, rfl⟩ | ⟨-, -, rfl⟩ | ⟨-, -, rfl⟩ <;> simp

/-- Every sequence of several bytes is announced by its first byte and completed by the others. -/
theorem exists_completes (hc : 0x80 ≤ c.toNat) :
    ∃ b bs l, String.utf8EncodeChar c = b :: bs ∧ Lead.of? b = some l ∧ l.Completes bs c := by
  have toNat {n : Nat} (h : n < 256) : (UInt8.ofNat n).toNat = n := UInt8.toNat_ofNat_of_lt' h
  have hvalid := c.valid
  simp only [UInt32.isValidChar, Nat.isValidChar] at hvalid
  change c.toNat < _ ∨ _ < c.toNat ∧ c.toNat < _ at hvalid
  generalize hn : c.toNat = n at *
  by_cases htwo : n ≤ 0x7FF
  · have hb : (UInt8.ofNat (n / 64 + 0xC0)).toNat = n / 64 + 0xC0 := toNat (by omega)
    refine ⟨_, _, _, hn ▸ encodeChar_two (by omega) (by omega), Lead.of?_two (by omega) (by omega),
      .last_of_eq rfl ?_ ?_⟩
    · simp only [Lead.admits_iff, toNat_trail, UInt8.reduceToNat]
      omega
    · simp only [Lead.bits_next_trail, hb]
      omega
  by_cases hthree : n ≤ 0xFFFF
  · have hb : (UInt8.ofNat (n / 4096 + 0xE0)).toNat = n / 4096 + 0xE0 := toNat (by omega)
    refine ⟨_, _, _, hn ▸ encodeChar_three (by omega) (by omega), Lead.of?_three (by omega) (by omega),
      .more Nat.one_lt_two ?_ (.last_of_eq rfl (Lead.admits_next_trail n) ?_)⟩
    · simp only [Lead.admits_iff, ← UInt8.toNat_inj, apply_ite UInt8.toNat, hb, toNat_trail, UInt8.reduceToNat]
      split <;> split <;> omega
    · simp only [Lead.bits_next_trail, hb]
      omega
  · have hb : (UInt8.ofNat (n / 262144 + 0xF0)).toNat = n / 262144 + 0xF0 := toNat (by omega)
    refine ⟨_, _, _, hn ▸ encodeChar_four (by omega), Lead.of?_four (by omega) (by omega),
      .more (by simp) ?_ (.more (by simp [Lead.more_next]) (Lead.admits_next_trail _)
        (.last_of_eq rfl (Lead.admits_next_trail n) ?_))⟩
    · simp only [Lead.admits_iff, ← UInt8.toNat_inj, apply_ite UInt8.toNat, hb, toNat_trail, UInt8.reduceToNat]
      split <;> split <;> omega
    · simp only [Lead.bits_next_trail, hb]
      omega

/-! ### Reading a byte -/

theorem toNat_ofNat_of_lt (hb : b.toNat < 0x80) : (Char.ofNat b.toNat).toNat = b.toNat :=
  toNat_ofNat (.inl (by omega))

theorem readFrom_of_lt (hb : b.toNat < 0x80) (bs : Bytes) :
    readFrom none (b :: bs) = Char.ofNat b.toNat :: readFrom none bs := by
  rw [readFrom, start, if_pos (UInt8.lt_iff_toNat_lt.mpr hb)]
  rfl

theorem readFrom_of_lead (hb : 0x80 ≤ b.toNat) (hlead : Lead.of? b = some l) (bs : Bytes) :
    readFrom none (b :: bs) = readFrom (some l) bs := by
  rw [readFrom, start, if_neg (by simpa [UInt8.lt_iff_toNat_lt] using hb), hlead]
  rfl

theorem readFrom_of_none (hb : 0x80 ≤ b.toNat) (hlead : Lead.of? b = none) (bs : Bytes) :
    readFrom none (b :: bs) = replacement :: readFrom none bs := by
  rw [readFrom, start, if_neg (by simpa [UInt8.lt_iff_toNat_lt] using hb), hlead]
  rfl

theorem extend_of_admits (hb : l.Admits b) : extend l b =
    if l.more ≤ 1 then ([Char.ofNat (l.next b).bits], none) else ([], some (l.next b)) := if_pos hb

theorem readFrom_last (hone : l.more = 1) (hb : l.Admits b) (bs : Bytes) :
    readFrom (some l) (b :: bs) = Char.ofNat (l.next b).bits :: readFrom none bs := by
  rw [readFrom, extend_of_admits hb, if_pos (Nat.le_of_eq hone)]
  rfl

theorem readFrom_more (hmore : 1 < l.more) (hb : l.Admits b) (bs : Bytes) :
    readFrom (some l) (b :: bs) = readFrom (some (l.next b)) bs := by
  rw [readFrom, extend_of_admits hb, if_neg (Nat.not_le.mpr hmore)]
  rfl

/-- A byte that cannot go on ends the broken part and is read afresh. -/
theorem readFrom_of_not_admits (hb : ¬l.Admits b) (bs : Bytes) :
    readFrom (some l) (b :: bs) = replacement :: readFrom none (b :: bs) := by
  have hext : extend l b = (replacement :: (start b).1, (start b).2) := if_neg hb
  calc readFrom (some l) (b :: bs) = (extend l b).1 ++ readFrom (extend l b).2 bs := rfl
    _ = replacement :: readFrom none (b :: bs) := by rw [hext]; rfl

/-- The bytes that complete a sequence are read as the character that it stands for. -/
theorem readFrom_of_completes (h : l.Completes bs c) (rest : Bytes) :
    readFrom (some l) (bs ++ rest) = c :: readFrom none rest := by
  induction h with
  | last hone hb => exact readFrom_last hone hb rest
  | more hmore hb _ ih => exact (readFrom_more hmore hb _).trans ih

theorem readFrom_encodeChar (c : Char) (rest : Bytes) :
    readFrom none (String.utf8EncodeChar c ++ rest) = c :: readFrom none rest := by
  by_cases hc : c.toNat ≤ 0x7F
  · have hb : (UInt8.ofNat c.toNat).toNat = c.toNat := UInt8.toNat_ofNat_of_lt' (show c.toNat < 256 by omega)
    rw [encodeChar_of_le hc, List.singleton_append, readFrom_of_lt (by omega), hb, Char.ofNat_toNat]
  · obtain ⟨b, bs, l, hbs, hb, hl⟩ := exists_completes (c := c) (by omega)
    rw [hbs, List.cons_append, readFrom_of_lead (Lead.le_of_of? hb) hb, readFrom_of_completes hl]

theorem readFrom_flatMap (cs : List Char) : readFrom none (cs.flatMap String.utf8EncodeChar) = cs := by
  induction cs with
  | nil => rfl
  | cons c cs ih => rw [List.flatMap_cons, readFrom_encodeChar, ih]

/-- What has been written is read again. -/
theorem decode_encode (s : String) : decode (encode s) = s := by
  rw [decode, encode, readFrom_flatMap, String.ofList_toList]

/-! ### Reading without a broken part -/

/-- A sequence that has been opened is completed, if nothing is broken from there on. -/
theorem completes_of_not_mem (hl : 0 < l.more) (h : replacement ∉ readFrom (some l) bs) :
    ∃ first rest c, bs = first ++ rest ∧ l.Completes first c := by
  induction bs generalizing l with
  | nil => simp [readFrom] at h
  | cons b bs ih =>
    by_cases hb : l.Admits b
    · by_cases hone : l.more = 1
      · exact ⟨[b], bs, _, rfl, .last hone hb⟩
      · rw [readFrom_more (by omega) hb] at h
        obtain ⟨first, rest, c, rfl, hfirst⟩ := ih (by rw [Lead.more_next]; omega) h
        exact ⟨b :: first, rest, c, rfl, .more (by omega) hb hfirst⟩
    · simp [readFrom_of_not_admits hb] at h

/-- A byte string that is read without a broken part is what its text is written as. -/
theorem flatMap_readFrom (bs : Bytes) (h : replacement ∉ readFrom none bs) :
    (readFrom none bs).flatMap String.utf8EncodeChar = bs := by
  match bs with
  | [] => rfl
  | b :: bs =>
    by_cases hb : b.toNat < 0x80
    · have hvalid := toNat_ofNat_of_lt hb
      rw [readFrom_of_lt hb] at h ⊢
      have ih := flatMap_readFrom bs fun hm => h (List.mem_cons_of_mem _ hm)
      rw [List.flatMap_cons, ih, encodeChar_of_le (by omega), hvalid, UInt8.ofNat_toNat]
      rfl
    · cases hlead : Lead.of? b with
      | none => simp [readFrom_of_none (by omega) hlead] at h
      | some l =>
        rw [readFrom_of_lead (by omega) hlead] at h ⊢
        obtain ⟨first, rest, c, rfl, hfirst⟩ := completes_of_not_mem (Lead.more_of_of? hlead) h
        rw [readFrom_of_completes hfirst] at h ⊢
        have ih := flatMap_readFrom rest fun hm => h (List.mem_cons_of_mem _ hm)
        rw [List.flatMap_cons, ih, Lead.encodeChar_of_completes hlead hfirst, List.cons_append]
termination_by bs.length

/-! ### Case -/

theorem toNat_foldByte (b : UInt8) :
    (Ascii.foldByte b).toNat = if 65 ≤ b.toNat ∧ b.toNat ≤ 90 then b.toNat + 32 else b.toNat := by
  simp only [Ascii.foldByte, UInt8.le_iff_toNat_le, UInt8.reduceToNat]
  split
  · rw [UInt8.toNat_add]
    simp only [UInt8.reduceToNat]
    omega
  · rfl

theorem foldByte_of_le (hb : 0x80 ≤ b.toNat) : Ascii.foldByte b = b := by
  rw [← UInt8.toNat_inj, toNat_foldByte, if_neg (by omega)]

theorem toLower_of_le (hc : 0x80 ≤ c.toNat) : c.toLower = c := by
  rw [← Char.toNat_inj, Ascii.toNat_toLower, if_neg (by omega)]

theorem toLower_ofNat (hb : b.toNat < 0x80) :
    (Char.ofNat b.toNat).toLower = Char.ofNat (Ascii.foldByte b).toNat := by
  have hfold := toNat_foldByte b
  have hlt : (Ascii.foldByte b).toNat < 0x80 := by
    rw [hfold]
    split <;> omega
  rw [← Char.toNat_inj, Ascii.toNat_toLower, toNat_ofNat_of_lt hb, toNat_ofNat_of_lt hlt, hfold]

/-- A sequence of several bytes has a character beyond ASCII, and none of its bytes is in ASCII. -/
structure Lead.Beyond (l : Lead) : Prop where
  more : 0 < l.more
  low : 0x80 ≤ l.low.toNat
  le : ∀ {bs c}, l.Completes bs c → 0x80 ≤ c.toNat

namespace Lead

theorem beyond_of_of? (hb : of? b = some l) : l.Beyond where
  more := more_of_of? hb
  low := by
    rcases cases_of? hb with ⟨-, -, rfl⟩ | ⟨-, -, rfl⟩ | ⟨-, -, rfl⟩
    · exact Nat.le_refl 0x80
    · dsimp only
      split <;> decide
    · dsimp only
      split <;> decide
  le {bs c} hbs := by
    by_contra hc
    have heq := (encodeChar_of_completes hb hbs).symm.trans (encodeChar_of_le (by omega))
    have hhead : b.toNat = c.toNat := by
      rw [(List.cons.inj heq).1]
      exact UInt8.toNat_ofNat_of_lt' (show c.toNat < 256 by omega)
    have hle := le_of_of? hb
    omega

theorem Beyond.next (h : l.Beyond) (hmore : 1 < l.more) (hb : l.Admits b) : (l.next b).Beyond where
  more := by rw [more_next]; omega
  low := Nat.le_refl 0x80
  le hbs := h.le (.more hmore hb hbs)

theorem Beyond.le_of_admits (h : l.Beyond) (hb : l.Admits b) : 0x80 ≤ b.toNat :=
  Nat.le_trans h.low (UInt8.le_iff_toNat_le.mp hb.1)

theorem Beyond.le_of_mem (h : l.Beyond) (hbs : l.Completes bs c) : ∀ b ∈ bs, 0x80 ≤ b.toNat := by
  induction hbs with
  | last _ hb => simpa using h.le_of_admits hb
  | more hmore hb _ ih => simpa using ⟨h.le_of_admits hb, ih (h.next hmore hb)⟩

end Lead

/-- A character made lower-case is written as its bytes are when they are. -/
theorem encodeChar_toLower (c : Char) :
    String.utf8EncodeChar c.toLower = (String.utf8EncodeChar c).map Ascii.foldByte := by
  by_cases hc : c.toNat ≤ 0x7F
  · have hlower := Ascii.toNat_toLower c
    have hle : c.toLower.toNat ≤ 0x7F := by
      rw [hlower]
      split <;> omega
    have hb : (UInt8.ofNat c.toNat).toNat = c.toNat := UInt8.toNat_ofNat_of_lt' (show c.toNat < 256 by omega)
    have hb' : (UInt8.ofNat c.toLower.toNat).toNat = c.toLower.toNat :=
      UInt8.toNat_ofNat_of_lt' (show c.toLower.toNat < 256 by omega)
    rw [encodeChar_of_le hc, encodeChar_of_le hle, List.map_singleton, List.singleton_inj, ← UInt8.toNat_inj,
      toNat_foldByte, hb, hb', hlower]
  · obtain ⟨b, bs, l, hbs, hb, hl⟩ := exists_completes (c := c) (by omega)
    have hhigh : ∀ b' ∈ b :: bs, Ascii.foldByte b' = b' := by
      simpa using ⟨foldByte_of_le (Lead.le_of_of? hb), fun b' hb' =>
        foldByte_of_le ((Lead.beyond_of_of? hb).le_of_mem hl b' hb')⟩
    rw [toLower_of_le (by omega), hbs, List.map_congr_left hhigh, List.map_id']

/-- It makes no difference whether the letters are made lower-case before the reading or after it. -/
theorem readFrom_map_foldByte (bs : Bytes) {open? : Option Lead} (hopen : ∀ l ∈ open?, l.Beyond) :
    readFrom open? (bs.map Ascii.foldByte) = (readFrom open? bs).map Char.toLower := by
  induction bs generalizing open? with
  | nil => cases open? <;> rfl
  | cons b bs ih =>
    have hnone : readFrom none ((b :: bs).map Ascii.foldByte) = (readFrom none (b :: bs)).map Char.toLower := by
      rw [List.map_cons]
      by_cases hb : b.toNat < 0x80
      · have hfold : (Ascii.foldByte b).toNat < 0x80 := by
          rw [toNat_foldByte]
          split <;> omega
        rw [readFrom_of_lt hb, readFrom_of_lt hfold, ih (by simp), List.map_cons, toLower_ofNat hb]
      · rw [foldByte_of_le (by omega)]
        cases hlead : Lead.of? b with
        | none =>
          rw [readFrom_of_none (by omega) hlead, readFrom_of_none (by omega) hlead, ih (by simp)]
          rfl
        | some l =>
          rw [readFrom_of_lead (by omega) hlead, readFrom_of_lead (by omega) hlead]
          exact ih fun l' hl' => Option.some.inj hl' ▸ Lead.beyond_of_of? hlead
    match open?, hopen with
    | none, _ => exact hnone
    | some l, hopen =>
      have hl : l.Beyond := hopen l rfl
      by_cases hb : l.Admits b
      · rw [List.map_cons, foldByte_of_le (hl.le_of_admits hb)]
        by_cases hone : l.more = 1
        · rw [readFrom_last hone hb, readFrom_last hone hb, ih (by simp), List.map_cons,
            toLower_of_le (hl.le (.last hone hb))]
        · have hmore : 1 < l.more := by
            have := hl.more
            omega
          rw [readFrom_more hmore hb, readFrom_more hmore hb]
          exact ih fun l' hl' => Option.some.inj hl' ▸ hl.next hmore hb
      · have hfold : ¬l.Admits (Ascii.foldByte b) := fun h => by
          have hle := hl.le_of_admits h
          rw [toNat_foldByte] at hle
          split at hle
          · omega
          · exact hb (foldByte_of_le hle ▸ h)
        rw [List.map_cons, readFrom_of_not_admits hb, readFrom_of_not_admits hfold, ← List.map_cons, hnone]
        rfl

end EngineBridge.Utf8
