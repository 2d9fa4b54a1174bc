import EngineBridge.Log.Filter
import Mathlib.Data.List.DropRight
import Mathlib.Data.List.Forall2

/-! Filters named in a text. Every piece of the text between commas has to name a severity, in letters of any
    case and with any blanks around it; the filter then lets through what the least severe of those named lets
    through, so neither the order of the pieces nor their repetition makes a difference. -/

namespace EngineBridge

/-! ### Pieces without their blanks -/

namespace Text
variable {before after word cs : List Char}

/-- The pieces of a text between marks are those of the standard library. -/
theorem splitAt_eq (mark : Char) (cs : List Char) : splitAt mark cs = cs.splitOn mark := by
  induction cs with
  | nil => rfl
  | cons c cs ih =>
    unfold splitAt
    rw [ih, List.splitOn_cons_eq_if_modifyHead]
    by_cases hc : c = mark
    · simp [hc]
    · simp only [hc, beq_iff_eq, if_false]
      rcases hsplit : cs.splitOn mark with _ | ⟨piece, pieces⟩
      · exact absurd hsplit (List.splitOn_ne_nil mark cs)
      · rfl

/-- Blanks are no letters, so they have no case. -/
theorem isBlank_toLower (c : Char) : isBlank c.toLower = isBlank c := by
  simp only [isBlank, Ascii.toNat_toLower]
  split
  · rw [Bool.eq_iff_iff]
    simp
    omega
  · rfl

theorem trim_eq (cs : List Char) : trim cs = (cs.dropWhile isBlank).rdropWhile isBlank := rfl

/-- Blanks are taken from both ends. -/
theorem exists_trim (cs : List Char) : ∃ before after, cs = before ++ trim cs ++ after ∧
    (∀ c ∈ before, isBlank c) ∧ ∀ c ∈ after, isBlank c := by
  refine ⟨cs.takeWhile isBlank, (cs.dropWhile isBlank).rtakeWhile isBlank, ?_, fun c hc => ?_, fun c hc => ?_⟩
  · rw [trim_eq, List.append_assoc, List.rdropWhile_append_rtakeWhile, List.takeWhile_append_dropWhile]
  · exact List.mem_takeWhile_imp hc
  · exact List.mem_rtakeWhile_imp hc

theorem trim_append (hbefore : ∀ c ∈ before, isBlank c) (hafter : ∀ c ∈ after, isBlank c)
    (hword : ∀ c ∈ word, isBlank c = false) : trim (before ++ word ++ after) = word := by
  have hdrop : (before ++ word ++ after).dropWhile isBlank = (word ++ after).dropWhile isBlank := by
    rw [List.append_assoc, List.dropWhile_append_of_pos hbefore]
  have hlast : (word ++ after).rdropWhile isBlank = word.rdropWhile isBlank := by
    rw [List.rdropWhile, List.reverse_append, List.dropWhile_append_of_pos (by simpa using hafter), List.rdropWhile]
  rw [trim_eq, hdrop]
  cases word with
  | nil => rw [List.nil_append, List.dropWhile_eq_nil_iff.mpr hafter, List.rdropWhile_nil]
  | cons c word =>
    rw [List.cons_append, List.dropWhile_cons_of_neg (by simp [hword c]), ← List.cons_append, hlast]
    exact List.rdropWhile_eq_self_iff.mpr fun hne => by simp [hword _ (List.getLast_mem hne)]

end Text

/-! ### Pieces that name a severity -/

namespace Log
open Text
variable {l m : Level} {ls : List Level} {piece : List Char}

namespace Level

/-- A piece of text names a severity: but for blanks around it, it is the name in letters of any case. -/
def NamedBy (l : Level) (piece : List Char) : Prop :=
  ∃ before word after, piece = before ++ word ++ after ∧ (∀ c ∈ before, isBlank c) ∧ (∀ c ∈ after, isBlank c) ∧
    Ascii.sameText l.name (String.ofList word)

theorem not_isBlank_of_sameText {word : List Char} (h : Ascii.sameText l.name (String.ofList word)) {c : Char}
    (hc : c ∈ word) : isBlank c = false := by
  have hname : (l.name.toList.map Char.toLower).all (fun c => !isBlank c) = true := by cases l <;> decide +kernel
  rw [Ascii.sameText, beq_iff_eq, String.toList_ofList] at h
  rw [h, List.all_eq_true] at hname
  have hlower := hname _ (List.mem_map_of_mem hc)
  rwa [Bool.not_eq_true', isBlank_toLower] at hlower

theorem namedBy_iff : l.NamedBy piece ↔ Ascii.sameText l.name (String.ofList (trim piece)) := by
  constructor
  · rintro ⟨before, word, after, rfl, hbefore, hafter, hword⟩
    rw [trim_append hbefore hafter fun c hc => not_isBlank_of_sameText hword hc]
    exact hword
  · intro h
    obtain ⟨before, after, heq, hbefore, hafter⟩ := exists_trim piece
    exact ⟨before, _, after, heq, hbefore, hafter, h⟩

theorem NamedBy.unique (hl : l.NamedBy piece) (hm : m.NamedBy piece) : l = m := by
  rw [namedBy_iff, Ascii.sameText, beq_iff_eq] at hl hm
  have hname : Ascii.sameText l.name m.name := by rw [Ascii.sameText, hl, hm, beq_self_eq_true]
  cases l <;> cases m <;> first | rfl | exact absurd hname (by decide)

/-- The severity that a piece names is among those that are tried for its first letter. -/
theorem mem_startingWith {c : Char} {cs : List Char} (h : Ascii.sameText l.name (String.ofList (c :: cs))) :
    l ∈ startingWith c := by
  rw [Ascii.sameText, beq_iff_eq, String.toList_ofList, List.map_cons] at h
  have hc := congrArg List.head? h
  rw [List.head?_cons] at hc
  cases l <;> simp [name] at hc <;> simp [startingWith, ← hc]

/-- A piece is read as the severity that it names: trying only the names with its first letter misses none. -/
theorem ofPiece?_eq_some_iff : ofPiece? piece = some l ↔ l.NamedBy piece := by
  rw [namedBy_iff]
  unfold ofPiece?
  cases htrim : trim piece with
  | nil =>
    have hname : ¬Ascii.sameText l.name (String.ofList []) := by cases l <;> decide +kernel
    exact iff_of_false nofun hname
  | cons c cs =>
    let tried := fun l : Level => Ascii.sameText l.name (String.ofList (c :: cs))
    have named {l' : Level} (h : tried l') : l'.NamedBy piece := namedBy_iff.mpr (htrim ▸ h)
    change (startingWith c).find? tried = some l ↔ tried l
    constructor
    · exact List.find?_some
    · intro hl
      obtain ⟨m, hm⟩ := Option.isSome_iff_exists.mp (List.find?_isSome.mpr ⟨l, mem_startingWith hl, hl⟩)
      exact (named hl).unique (named (List.find?_some hm)) ▸ hm

end Level

/-! ### Filters of several severities -/

namespace Filter
variable {f g : Filter} {pieces : List (List Char)}

/-- Of two severities the less severe one brings in what the other does. -/
theorem union_upTo (l m : Level) : upTo l ||| upTo m = upTo (if l.number ≤ m.number then m else l) := by
  cases l <;> cases m <;> rfl

theorem none_union (f : Filter) : none ||| f = f := congrArg mk (UInt32.zero_or)

/-- What several severities bring in is what the least severe of them does. -/
theorem exists_foldl_eq (l : Level) (ls : List Level) : ∃ m ∈ l :: ls, (∀ l' ∈ l :: ls, l'.number ≤ m.number) ∧
    ls.foldl (fun f l => f ||| upTo l) (upTo l) = upTo m := by
  induction ls generalizing l with
  | nil => exact ⟨l, by simp⟩
  | cons l' ls ih =>
    rw [List.foldl_cons, union_upTo]
    obtain ⟨m, hm, hmax, hfold⟩ := ih (if l.number ≤ l'.number then l' else l)
    refine ⟨m, ?_, ?_, hfold⟩
    · split at hm <;> grind
    · split at hmax <;> grind

theorem exists_all_eq (hls : ls ≠ []) : ∃ m ∈ ls, (∀ l ∈ ls, l.number ≤ m.number) ∧ all ls = upTo m := by
  obtain ⟨l, ls, rfl⟩ := List.exists_cons_of_ne_nil hls
  rw [all, List.foldl_cons, none_union]
  exact exists_foldl_eq l ls

theorem allows_all (ls : List Level) (l : Level) : (all ls).allows l ↔ ∃ m ∈ ls, l.number ≤ m.number := by
  by_cases hls : ls = []
  · simp [hls, all, allows_none]
  · obtain ⟨m, hm, hmax, heq⟩ := exists_all_eq hls
    rw [heq, allows_upTo, decide_eq_true_eq]
    exact ⟨fun hl => ⟨m, hm, hl⟩, fun ⟨m', hm', hl⟩ => hl.trans (hmax m' hm')⟩

/-- Neither the order of severities nor their repetition makes a difference. -/
theorem all_congr {ls' : List Level} (h : ∀ l, l ∈ ls' ↔ l ∈ ls) : all ls' = all ls := by
  by_cases hls : ls = []
  · subst hls
    rw [List.eq_nil_iff_forall_not_mem.mpr fun l hl => List.not_mem_nil ((h l).mp hl)]
  · have hls' : ls' ≠ [] := by
      rintro rfl
      exact hls (List.eq_nil_iff_forall_not_mem.mpr fun l hl => List.not_mem_nil ((h l).mpr hl))
    obtain ⟨m, hm, hmax, heq⟩ := exists_all_eq hls
    obtain ⟨m', hm', hmax', heq'⟩ := exists_all_eq hls'
    rw [heq, heq', Level.number_inj (Nat.le_antisymm (hmax m' ((h m').mp hm')) (hmax' m ((h m).mpr hm)))]

/-- Pieces are read one after the other, until one names no severity. -/
theorem foldlM_pieces_eq_some_iff :
    pieces.foldlM (fun f piece => (Level.ofPiece? piece).map fun l => f ||| upTo l) f = some g ↔
      ∃ ls, List.Forall₂ Level.NamedBy ls pieces ∧ ls.foldl (fun f l => f ||| upTo l) f = g := by
  induction pieces generalizing f with
  | nil => simp
  | cons piece pieces ih =>
    simp only [List.foldlM_cons, Option.bind_eq_bind, Option.bind_eq_some_iff, Option.map_eq_some_iff, ih,
      Level.ofPiece?_eq_some_iff, List.forall₂_cons_right_iff]
    constructor
    · rintro ⟨_, ⟨l, hl, rfl⟩, ls, hls, rfl⟩
      exact ⟨l :: ls, ⟨l, ls, hl, hls, rfl⟩, rfl⟩
    · rintro ⟨_, ⟨l, ls, hl, hls, rfl⟩, rfl⟩
      exact ⟨_, ⟨l, hl, rfl⟩, ls, hls, rfl⟩

theorem parse?_eq_some_iff {s : String} :
    parse? s = some f ↔ ∃ ls, List.Forall₂ Level.NamedBy ls (s.toList.splitOn ',') ∧ all ls = f := by
  rw [parse?, splitAt_eq]
  exact foldlM_pieces_eq_some_iff

/-- Where every piece names a severity there is a list of those that they name. -/
theorem exists_named_iff :
    (∃ ls, List.Forall₂ Level.NamedBy ls pieces) ↔ ∀ piece ∈ pieces, ∃ l : Level, l.NamedBy piece := by
  induction pieces with
  | nil => simp
  | cons piece pieces ih =>
    simp only [List.forall₂_cons_right_iff, List.forall_mem_cons, ← ih]
    constructor
    · rintro ⟨_, l, ls, hl, hls, rfl⟩
      exact ⟨⟨l, hl⟩, ls, hls⟩
    · rintro ⟨⟨l, hl⟩, ls, hls⟩
      exact ⟨_, l, ls, hl, hls, rfl⟩

/-- A text names a filter just if each of its pieces between commas names a severity, and then the filter lets
    through what is at least as severe as one of those named, which is what the least severe of them brings in,
    in whatever order and however often they are named. A single severity is read from a text just if the text
    names it. -/
theorem grammar_law (s : String) :
    (∀ l, Level.parse? s = some l ↔ l.NamedBy s.toList) ∧
    ((parse? s).isSome ↔ ∀ piece ∈ s.toList.splitOn ',', ∃ l : Level, l.NamedBy piece) ∧
    ∀ f, parse? s = some f → ∃ ls, List.Forall₂ Level.NamedBy ls (s.toList.splitOn ',') ∧
      (∀ l, f.allows l ↔ ∃ m ∈ ls, l.number ≤ m.number) ∧ (∀ ls', (∀ l, l ∈ ls' ↔ l ∈ ls) → f = all ls') ∧
      ∃ m ∈ ls, (∀ l ∈ ls, l.number ≤ m.number) ∧ f = upTo m := by
  refine ⟨fun l => Level.ofPiece?_eq_some_iff, ?_, fun f hf => ?_⟩
  · rw [Option.isSome_iff_exists, ← exists_named_iff]
    simp only [parse?_eq_some_iff]
    exact ⟨fun ⟨_, ls, hls, _⟩ => ⟨ls, hls⟩, fun ⟨ls, hls⟩ => ⟨_, ls, hls, rfl⟩⟩
  · obtain ⟨ls, hls, rfl⟩ := parse?_eq_some_iff.mp hf
    have hne : ls ≠ [] := by
      rintro rfl
      exact List.splitOn_ne_nil _ _ (List.forall₂_nil_left_iff.mp hls)
    exact ⟨ls, hls, allows_all ls, fun ls' h => (all_congr h).symm, exists_all_eq hne⟩

/-- The least severe piece counts, wherever it stands and whatever blanks are around it. -/
theorem grammar_law_when_spaced :
    let s := "\tcrit,Warn ,\u00a0CRIT"
    parse? s = some (upTo .warn) ∧ ∃ ls, List.Forall₂ Level.NamedBy ls (s.toList.splitOn ',') ∧
      (∀ l, (upTo .warn).allows l ↔ ∃ m ∈ ls, l.number ≤ m.number) ∧ upTo .warn = all ls := by
  intro s
  have hparse : parse? s = some (upTo .warn) := by decide +kernel
  obtain ⟨ls, hls, hallows, hall, -⟩ := (grammar_law s).2.2 _ hparse
  exact ⟨hparse, ls, hls, hallows, hall ls fun _ => Iff.rfl⟩

end Filter
end Log
end EngineBridge
