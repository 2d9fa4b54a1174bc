import EngineBridge.Net.SocketAddr
import EngineBridge.Proofs.Numerals
import EngineBridge.Proofs.ZeroRuns

/-! The text of addresses and what is read from it. IPv4 is read strictly: an address has one text. An IPv6
    address can be written in many ways; its own text leaves out the first of the longest runs of zero groups, or
    ends in an IPv4 address where it carries one, and is read as the address again. -/

namespace EngineBridge.Net
open Numeral

/-! ### IPv4 -/

namespace IPv4
variable {cs rest : List Char} {n : UInt8} {ip : IPv4}

theorem halts_point (cs : List Char) : Halts 10 ('.' :: cs) := Halts.cons (by decide)

theorem readOctet_text (n : UInt8) (hrest : Halts 10 rest) :
    readOctet (Numeral.text 10 n.toNat ++ rest) = some (n, rest) := by
  obtain ⟨ds, hlead, hds, hn, hlength⟩ := leading_text (by decide) (by decide) n.toNat hrest
  have hlt := n.toNat_lt
  have hle : (Numeral.text 10 n.toNat).length ≤ 3 := (Nat.length_toDigits_le_iff (by decide) (by decide)).mpr (by omega)
  have hhead : ¬(1 < ds.length ∧ ds.head? = some 0) := by
    rintro ⟨hlong, hzero⟩
    rw [hds.head hzero] at hlong
    cases hlong with
    | step h => cases h
  unfold readOctet
  rw [hlead]
  dsimp only
  rw [hn, if_neg, UInt8.ofNat_toNat]
  rintro (hnil | hlong | hzero | hbig)
  · exact hds.ne_nil hnil
  · omega
  · exact hhead hzero
  · omega

theorem eq_of_readOctet (hcs : readOctet cs = some (n, rest)) : cs = Numeral.text 10 n.toNat ++ rest := by
  rcases hlead : leading 10 cs with ⟨ds, rest'⟩
  obtain ⟨rfl, hlt⟩ := eq_of_leading (by decide) hlead
  unfold readOctet at hcs
  rw [hlead] at hcs
  dsimp only at hcs
  split at hcs
  · cases hcs
  · next hok =>
    cases hcs
    simp only [not_or, not_and] at hok
    obtain ⟨hnil, -, hhead, hsmall⟩ := hok
    have hds : Canonical 10 ds := by
      refine ⟨hnil, hlt, fun hzero => ?_⟩
      obtain ⟨d, ds, rfl⟩ := List.exists_cons_of_ne_nil hnil
      cases hzero
      cases ds with
      | nil => rfl
      | cons e ds => exact absurd rfl (hhead (by simp))
    rw [UInt8.toNat_ofNat_of_lt' (by show _ < 256; omega), text_ofDigits (by decide) hds]

theorem readPointed_text (n : UInt8) (hrest : Halts 10 rest) :
    readPointed ('.' :: (Numeral.text 10 n.toNat ++ rest)) = some (n, rest) := readOctet_text n hrest

theorem eq_of_readPointed (hcs : readPointed cs = some (n, rest)) :
    cs = '.' :: (Numeral.text 10 n.toNat ++ rest) := by
  unfold readPointed at hcs
  split at hcs
  · rw [eq_of_readOctet hcs]
  · cases hcs

theorem text_append (ip : IPv4) (rest : List Char) : ip.text ++ rest =
    Numeral.text 10 ip.a.toNat ++ '.' :: (Numeral.text 10 ip.b.toNat ++ '.' :: (Numeral.text 10 ip.c.toNat ++
      '.' :: (Numeral.text 10 ip.d.toNat ++ rest))) := by
  simp [text]

theorem read_text (ip : IPv4) (hrest : Halts 10 rest) : read (ip.text ++ rest) = some (ip, rest) := by
  rw [text_append]
  unfold read
  simp [readOctet_text _ (halts_point _), readPointed_text _ (halts_point _), readPointed_text _ hrest]

theorem eq_of_read (hcs : read cs = some (ip, rest)) : cs = ip.text ++ rest := by
  unfold read at hcs
  simp only [Option.bind_eq_bind, Option.bind_eq_some_iff, Prod.exists, Option.pure_def, Option.some.injEq,
    Prod.mk.injEq] at hcs
  obtain ⟨a, cs₁, ha, b, cs₂, hb, c, cs₃, hc, d, cs₄, hd, rfl, rfl⟩ := hcs
  rw [eq_of_readOctet ha, eq_of_readPointed hb, eq_of_readPointed hc, eq_of_readPointed hd, text_append]

/-- An address has one text. -/
theorem ofChars?_eq_some_iff : ofChars? cs = some ip ↔ cs = ip.text := by
  constructor
  · intro hcs
    unfold ofChars? at hcs
    split at hcs
    · next hread =>
      cases hcs
      rw [eq_of_read hread, List.append_nil]
    · cases hcs
  · rintro rfl
    have hread := read_text ip Halts.nil
    rw [List.append_nil] at hread
    unfold ofChars?
    rw [hread]

/-- No address is read where the digits at the head of a text are not followed by a point. -/
theorem read_eq_none {ds : List Nat} (hlead : leading 10 cs = (ds, rest)) (hrest : rest.head? ≠ some '.') :
    read cs = none := by
  -- the first octet may be read, but it ends where the digits do
  have hsecond : ∀ n, readOctet cs = some (n, rest) → readPointed rest = none := by
    intro n _
    unfold readPointed
    split
    · exact absurd rfl hrest
    · rfl
  unfold read
  cases hfirst : readOctet cs with
  | none => rfl
  | some found =>
    obtain ⟨n, rest'⟩ := found
    have heq : rest' = rest := by
      unfold readOctet at hfirst
      rw [hlead] at hfirst
      dsimp only at hfirst
      split at hfirst
      · cases hfirst
      · cases hfirst
        rfl
    subst heq
    simp [hsecond n hfirst]

theorem mem_text {c : Char} (hc : c ∈ ip.text) : c = '.' ∨ ∃ d, c = Nat.digitChar d := by
  have hdigit : ∀ n : UInt8, c ∈ Numeral.text 10 n.toNat → ∃ d, c = Nat.digitChar d := fun n hn =>
    exists_digitChar (by decide) hn
  simp only [text, List.mem_append, List.mem_cons, or_assoc] at hc
  rcases hc with hc | hc | hc | hc | hc | hc | hc
  · exact .inr (hdigit _ hc)
  · exact .inl hc
  · exact .inr (hdigit _ hc)
  · exact .inl hc
  · exact .inr (hdigit _ hc)
  · exact .inl hc
  · exact .inr (hdigit _ hc)

end IPv4

/-! ### IPv6 -/

namespace IPv6
variable {cs rest : List Char} {g : UInt16} {gs : List UInt16} {run : Run} {ip : IPv6} {v4 : IPv4}

/-! #### What is written -/

/-- An address carries an IPv4 address: five groups of zeros and one of ones stand before it. -/
def Carries (ip : IPv6) (v4 : IPv4) : Prop :=
  ip.groups = [0, 0, 0, 0, 0, 0xFFFF, BigEndian.ofBytes v4.a v4.b, BigEndian.ofBytes v4.c v4.d]

theorem mapped?_eq_some_iff : mapped? ip = some v4 ↔ ip.Carries v4 := by
  obtain ⟨a, b, c, d, e, f, g, h⟩ := ip
  unfold mapped? Carries groups
  constructor
  · intro hmapped
    split at hmapped
    · next hhead =>
      cases hmapped
      simp only [List.take_succ_cons, List.take_zero, List.cons.injEq, and_true] at hhead
      simp [hhead, BigEndian.ofBytes_bytes]
    · cases hmapped
  · intro hcarries
    simp only [List.cons.injEq, and_true] at hcarries
    obtain ⟨rfl, rfl, rfl, rfl, rfl, rfl, rfl, rfl⟩ := hcarries
    simp [BigEndian.bytes_ofBytes]

/-- The text of an address. An IPv4 address that it carries is written as one; else the first of the longest runs
    of zero groups is left out if it has two groups or more. -/
inductive Written (ip : IPv6) : List Char → Prop
  | dotted (v4 : IPv4) : ip.Carries v4 → Written ip ("::ffff:".toList ++ v4.text)
  | shortened (run : Run) : (∀ v4, ¬ip.Carries v4) → run.Leads ip.groups → 1 < run.length →
      Written ip (colonText (ip.groups.take run.start) ++ "::".toList ++
        colonText (ip.groups.drop (run.start + run.length)))
  | full : (∀ v4, ¬ip.Carries v4) → (∀ run : Run, run.Within ip.groups → run.length ≤ 1) →
      Written ip (colonText ip.groups)

theorem written_text (ip : IPv6) : ip.Written ip.text := by
  have hleads := leads ip.groups
  unfold text
  cases hmapped : mapped? ip with
  | some v4 => exact .dotted v4 (mapped?_eq_some_iff.mp hmapped)
  | none =>
    have hplain : ∀ v4, ¬ip.Carries v4 := by
      intro v4 hcarries
      rw [mapped?_eq_some_iff.mpr hcarries] at hmapped
      cases hmapped
    dsimp only
    split
    · next hlong => exact .shortened _ hplain hleads hlong
    · next hshort => exact .full hplain fun run hrun => Nat.le_trans (hleads.longest run hrun) (by omega)

/-- An address has one text. -/
theorem Written.eq (hcs : ip.Written cs) : cs = ip.text := by
  have hleads := leads ip.groups
  unfold text
  cases hcs with
  | dotted v4 hcarries => rw [mapped?_eq_some_iff.mpr hcarries]
  | shortened run hplain hrun hlong =>
    have hnone : mapped? ip = none := Option.eq_none_iff_forall_ne_some.mpr fun v4 hv4 =>
      hplain v4 (mapped?_eq_some_iff.mp hv4)
    rw [hnone]
    dsimp only
    rw [← hrun.eq hleads, if_pos hlong]
  | full hplain hshort =>
    have hnone : mapped? ip = none := Option.eq_none_iff_forall_ne_some.mpr fun v4 hv4 =>
      hplain v4 (mapped?_eq_some_iff.mp hv4)
    have hle := hshort _ hleads.within
    rw [hnone]
    dsimp only
    rw [if_neg (by omega)]

/-! #### What is read -/

theorem readGroup_text (g : UInt16) (hrest : Halts 16 rest) :
    readGroup (Numeral.text 16 g.toNat ++ rest) = some (g, rest) := by
  obtain ⟨ds, hlead, hds, hn, hlength⟩ := leading_text (by decide) (by decide) g.toNat hrest
  have hlt := g.toNat_lt
  have hle : (Numeral.text 16 g.toNat).length ≤ 4 := (Nat.length_toDigits_le_iff (by decide) (by decide)).mpr (by omega)
  unfold readGroup
  rw [hlead]
  dsimp only
  rw [hn, if_neg, UInt16.ofNat_toNat]
  rintro (hnil | hlong)
  · exact hds.ne_nil hnil
  · omega

/-- A group is not taken for the first number of an IPv4 address. -/
theorem read_text (g : UInt16) (hrest : Halts 16 rest) (hpoint : rest.head? ≠ some '.') :
    IPv4.read (Numeral.text 16 g.toNat ++ rest) = none := by
  obtain ⟨ds, -, -, heq⟩ := exists_text_eq (show 1 < 16 by decide) g.toNat
  obtain ⟨es, rest', hlead, hpoint'⟩ := leading_ten ds hrest hpoint
  rw [heq]
  exact IPv4.read_eq_none hlead hpoint'

/-- The text of groups that come after others. -/
def colonTail (gs : List UInt16) : List Char := gs.flatMap fun g => ':' :: Numeral.text 16 g.toNat

theorem colonText_cons (g : UInt16) (gs : List UInt16) :
    colonText (g :: gs) = Numeral.text 16 g.toNat ++ colonTail gs := by
  induction gs generalizing g with
  | nil => simp [colonText, colonTail]
  | cons g' gs ih =>
    have hsplit : colonText (g :: g' :: gs) = Numeral.text 16 g.toNat ++ ':' :: colonText (g' :: gs) := by
      simp [colonText, List.intercalate]
    rw [hsplit, ih]
    simp [colonTail]

/-- A part of an address ends here: nothing follows, or what is left out of the address. -/
def Stops (rest : List Char) : Prop := rest = [] ∨ ∃ cs, rest = ':' :: ':' :: cs

theorem Stops.halts (hrest : Stops rest) : Halts 16 rest ∧ rest.head? ≠ some '.' := by
  rcases hrest with rfl | ⟨cs, rfl⟩
  · exact ⟨.nil, by simp⟩
  · exact ⟨.cons (by decide), by simp⟩

theorem halts_colonTail (gs : List UInt16) (hrest : Stops rest) :
    Halts 16 (colonTail gs ++ rest) ∧ (colonTail gs ++ rest).head? ≠ some '.' := by
  cases gs with
  | nil => exact hrest.halts
  | cons g gs => exact ⟨.cons (by decide), by simp [colonTail]⟩

theorem readPart_stop (room : Nat) (first : Bool) (hrest : Stops rest) :
    readPart room first rest = ⟨[], false, rest⟩ := by
  cases room with
  | zero => rfl
  | succ room =>
    have hread : (separator first rest).bind IPv4.read = none := by
      rcases hrest with rfl | ⟨cs, rfl⟩ <;> cases first <;> rfl
    have hgroup : (separator first rest).bind readGroup = none := by
      rcases hrest with rfl | ⟨cs, rfl⟩ <;> cases first <;> rfl
    unfold readPart
    rw [hread, hgroup, ite_self]

theorem readPart_group {room : Nat} {first : Bool}
    (hcs : separator first cs = some (Numeral.text 16 g.toNat ++ rest)) (hhalts : Halts 16 rest)
    (hpoint : rest.head? ≠ some '.') : readPart (room + 1) first cs =
      ⟨g :: (readPart room false rest).groups, (readPart room false rest).dotted, (readPart room false rest).rest⟩ := by
  have hread : (separator first cs).bind IPv4.read = none := by
    rw [hcs]
    exact read_text g hhalts hpoint
  have hgroup : (separator first cs).bind readGroup = some (g, rest) := by
    rw [hcs]
    exact readGroup_text g hhalts
  conv_lhs => unfold readPart
  rw [hread, hgroup, ite_self]

theorem readPart_colonTail {room : Nat} (hroom : gs.length ≤ room) (hrest : Stops rest) :
    readPart room false (colonTail gs ++ rest) = ⟨gs, false, rest⟩ := by
  induction gs generalizing room with
  | nil => exact readPart_stop room false hrest
  | cons g gs ih =>
    obtain ⟨room, rfl⟩ := Nat.exists_eq_add_one_of_ne_zero (n := room) (by simp at hroom; omega)
    have hstep : separator false (colonTail (g :: gs) ++ rest) =
        some (Numeral.text 16 g.toNat ++ (colonTail gs ++ rest)) := by
      simp [colonTail, separator]
    obtain ⟨hhalts, hpoint⟩ := halts_colonTail gs hrest
    rw [readPart_group hstep hhalts hpoint, ih (by simpa using hroom)]

theorem readPart_colonText {room : Nat} (hroom : gs.length ≤ room) (hrest : Stops rest) :
    readPart room true (colonText gs ++ rest) = ⟨gs, false, rest⟩ := by
  cases gs with
  | nil => exact readPart_stop room true hrest
  | cons g gs =>
    obtain ⟨room, rfl⟩ := Nat.exists_eq_add_one_of_ne_zero (n := room) (by simp at hroom; omega)
    have hstep : separator true (colonText (g :: gs) ++ rest) =
        some (Numeral.text 16 g.toNat ++ (colonTail gs ++ rest)) := by
      simp [colonText_cons, separator]
    obtain ⟨hhalts, hpoint⟩ := halts_colonTail gs hrest
    rw [readPart_group hstep hhalts hpoint, readPart_colonTail (by simpa using hroom) hrest]

/-! #### Reading what was written -/

/-- An address is read in two parts where groups are left out between them. -/
theorem ofChars?_parts {front back : List UInt16} {dotted : Bool} {more : List Char}
    (hfront : readPart 8 true cs = ⟨front, false, ':' :: ':' :: more⟩) (hlt : front.length < 8)
    (hback : readPart (7 - front.length) true more = ⟨back, dotted, []⟩) :
    ofChars? cs = ofGroups? (front ++ List.replicate (8 - front.length - back.length) 0 ++ back) := by
  unfold ofChars?
  rw [hfront]
  dsimp only
  split
  · next hnil => cases hnil
  · next height _ => omega
  · next hrest _ =>
    cases hrest
    rw [hback]
  · next hnone => exact absurd rfl (hnone _ rfl)

theorem ofChars?_dotted (hcarries : ip.Carries v4) : ofChars? ("::ffff:".toList ++ v4.text) = some ip := by
  have hhead : "::ffff:".toList = ':' :: ':' :: ("ffff".toList ++ [':']) := by decide
  have htext : "::ffff:".toList ++ v4.text = ':' :: ':' :: ("ffff".toList ++ ':' :: v4.text) := by
    rw [hhead]
    simp
  have hones : Numeral.text 16 (0xFFFF : UInt16).toNat = "ffff".toList := by decide
  have htail : readPart 6 false (':' :: v4.text) =
      ⟨[BigEndian.ofBytes v4.a v4.b, BigEndian.ofBytes v4.c v4.d], true, []⟩ := by
    have hread := IPv4.read_text v4 Halts.nil
    rw [List.append_nil] at hread
    unfold readPart
    simp [separator, hread]
  have hback : readPart 7 true ("ffff".toList ++ ':' :: v4.text) =
      ⟨[0xFFFF, BigEndian.ofBytes v4.a v4.b, BigEndian.ofBytes v4.c v4.d], true, []⟩ := by
    have hfirst : separator true ("ffff".toList ++ ':' :: v4.text) =
        some (Numeral.text 16 (0xFFFF : UInt16).toNat ++ ':' :: v4.text) := by
      rw [hones]
      rfl
    rw [readPart_group hfirst (.cons (by decide)) (by simp), htail]
  rw [htext, ofChars?_parts (readPart_stop 8 true (.inr ⟨_, rfl⟩)) (by simp) hback, ← ofGroups?_groups ip, hcarries]
  rfl

/-- The groups of an address are those before a run within them, the run, and those after it. -/
theorem groups_eq (hrun : run.Within ip.groups) : ip.groups =
    ip.groups.take run.start ++ List.replicate run.length 0 ++ ip.groups.drop (run.start + run.length) := by
  have hzero : (ip.groups.drop run.start).take run.length = List.replicate run.length 0 := by
    apply List.ext_getElem?
    intro i
    by_cases hi : i < run.length
    · rw [List.getElem?_take_of_lt hi, List.getElem?_drop, hrun _ (by omega) (by omega),
        List.getElem?_replicate_of_lt hi]
    · rw [List.getElem?_eq_none (by simp; omega), List.getElem?_eq_none (by simp; omega)]
  rw [← hzero, List.append_assoc, ← List.drop_drop, List.take_append_drop, List.take_append_drop]

theorem ofChars?_shortened (hrun : run.Within ip.groups) (hlong : 1 < run.length) :
    ofChars? (colonText (ip.groups.take run.start) ++ "::".toList ++
      colonText (ip.groups.drop (run.start + run.length))) = some ip := by
  have hle := hrun.le (by omega)
  rw [length_groups] at hle
  have hfrontLength : (ip.groups.take run.start).length = run.start := by simp; omega
  have hbackLength : (ip.groups.drop (run.start + run.length)).length = 8 - run.start - run.length := by simp; omega
  have hcolons : "::".toList = [':', ':'] := by decide
  have hfront (cs : List Char) : readPart 8 true (colonText (ip.groups.take run.start) ++ ':' :: ':' :: cs) =
      ⟨ip.groups.take run.start, false, ':' :: ':' :: cs⟩ := readPart_colonText (by omega) (.inr ⟨_, rfl⟩)
  have hback : readPart (7 - run.start) true (colonText (ip.groups.drop (run.start + run.length)) ++ []) =
      ⟨ip.groups.drop (run.start + run.length), false, []⟩ := readPart_colonText (by omega) (.inl rfl)
  rw [List.append_nil] at hback
  rw [hcolons, List.append_assoc, List.cons_append, List.cons_append, List.nil_append,
    ofChars?_parts (hfront _) (by omega) (by rw [hfrontLength]; exact hback), hfrontLength, hbackLength,
    show 8 - run.start - (8 - run.start - run.length) = run.length by omega, ← groups_eq hrun, ofGroups?_groups]

theorem ofChars?_full (ip : IPv6) : ofChars? (colonText ip.groups) = some ip := by
  have hfront : readPart 8 true (colonText ip.groups ++ []) = ⟨ip.groups, false, []⟩ :=
    readPart_colonText (by simp) (.inl rfl)
  rw [List.append_nil] at hfront
  unfold ofChars?
  rw [hfront]
  exact ofGroups?_groups ip

/-- The text of an address is read as the address. -/
theorem ofChars?_text (ip : IPv6) : ofChars? ip.text = some ip := by
  have hwritten := written_text ip
  generalize ip.text = cs at hwritten
  cases hwritten with
  | dotted v4 hcarries => exact ofChars?_dotted hcarries
  | shortened run _ hrun hlong => exact ofChars?_shortened hrun.within hlong
  | full => exact ofChars?_full ip

end IPv6
end EngineBridge.Net
