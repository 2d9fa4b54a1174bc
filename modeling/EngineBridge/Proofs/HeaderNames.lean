import EngineBridge.Proofs.Decoding
import EngineBridge.Proofs.Reach

/-! Headers found by their names. Application code looks for a name in the headers that have been made into
    text, resolvers look for its bytes in what the engine reports. Both come to the same header, since a name
    without U+FFFD is the text of no bytes but its own, up to the case of its letters. -/

namespace EngineBridge
open EngineBridge.Action Registry

/-! ### Names -/

namespace Utf8
variable {bs raw : Bytes} {s name : String}

/-- A text without U+FFFD is the text of its own bytes alone. -/
theorem decode_eq_iff (hs : replacement ∉ s.toList) : decode bs = s ↔ bs = encode s where
  mp h := by
    subst h
    rw [decode, String.toList_ofList] at hs
    rw [decode, encode, String.toList_ofList, flatMap_readFrom bs hs]
  mpr h := by rw [h, decode_encode]

theorem toList_toLower (s : String) : s.toLower.toList = s.toList.map Char.toLower := String.toList_map

theorem decode_map_foldByte (bs : Bytes) : decode (bs.map Ascii.foldByte) = (decode bs).toLower := by
  rw [← String.toList_inj, toList_toLower, decode, decode, String.toList_ofList, String.toList_ofList,
    readFrom_map_foldByte bs (by simp)]

theorem encode_toLower (s : String) : encode s.toLower = (encode s).map Ascii.foldByte := by
  rw [encode, encode, toList_toLower, List.flatMap_map, List.map_flatMap]
  exact congrArg (List.flatMap · s.toList) (funext encodeChar_toLower)

theorem toLower_eq_replacement {c : Char} (hc : c.toLower = replacement) : c = replacement := by
  have heq : c.toLower.toNat = 0xFFFD := congrArg Char.toNat hc
  rw [Ascii.toNat_toLower] at heq
  rw [← Char.toNat_inj]
  show c.toNat = 0xFFFD
  split at heq <;> omega

theorem sameText_iff : Ascii.sameText s name ↔ s.toLower = name.toLower := by
  rw [Ascii.sameText, beq_iff_eq, ← String.toList_inj, toList_toLower, toList_toLower]

/-- The text of a name is taken for another one just when its bytes are. -/
theorem sameText_decode (hname : replacement ∉ name.toList) (raw : Bytes) :
    Ascii.sameText (decode raw) name = Ascii.sameBytes raw (encode name) := by
  have hlower : replacement ∉ name.toLower.toList := by
    rw [toList_toLower, List.mem_map]
    rintro ⟨c, hc, heq⟩
    exact hname (toLower_eq_replacement heq ▸ hc)
  rw [Bool.eq_iff_iff]
  calc Ascii.sameText (decode raw) name = true
    _ ↔ (decode raw).toLower = name.toLower := sameText_iff
    _ ↔ decode (raw.map Ascii.foldByte) = name.toLower := by rw [decode_map_foldByte]
    _ ↔ raw.map Ascii.foldByte = encode name.toLower := decode_eq_iff hlower
    _ ↔ Ascii.sameBytes raw (encode name) = true := by rw [encode_toLower, Ascii.sameBytes, beq_iff_eq]

end Utf8

/-! ### The first header of a name -/

namespace Headers

/-- The value, in text, of the first header that has a name, up to the case of its letters. -/
inductive FirstNamed (name : String) : List (Bytes × Bytes) → Option String → Prop
  | none {hs : List (Bytes × Bytes)} : (∀ x ∈ hs, ¬Ascii.sameBytes x.1 (Utf8.encode name)) → FirstNamed name hs none
  | some {before after : List (Bytes × Bytes)} {raw value : Bytes} :
      (∀ x ∈ before, ¬Ascii.sameBytes x.1 (Utf8.encode name)) →
      Ascii.sameBytes raw (Utf8.encode name) →
      FirstNamed name (before ++ (raw, value) :: after) (some (Utf8.decode value))

variable {name : String}

theorem firstNamed_findRaw? (hs : List (Bytes × Bytes)) (name : String) :
    FirstNamed name hs (findRaw? hs name) := by
  unfold findRaw?
  cases hfind : hs.find? fun x => Ascii.sameBytes x.1 (Utf8.encode name) with
  | none => exact .none fun x hx => List.find?_eq_none.mp hfind x hx
  | some found =>
    obtain ⟨hfound, before, after, rfl, hbefore⟩ := List.find?_eq_some_iff_append.mp hfind
    exact .some (fun x hx => by simpa using hbefore x hx) hfound

/-- It makes no difference whether a name is looked for in the text of the headers or in their bytes. -/
theorem find?_decode (hname : Utf8.replacement ∉ name.toList) (hs : List (Bytes × Bytes)) :
    find? (decode hs) name = findRaw? hs name := by
  have hsame : (fun x : String × String => Ascii.sameText x.1 name) ∘
      (fun x : Bytes × Bytes => (Utf8.decode x.1, Utf8.decode x.2)) =
        fun x => Ascii.sameBytes x.1 (Utf8.encode name) :=
    funext fun x => Utf8.sameText_decode hname x.1
  show ((hs.map fun x => (Utf8.decode x.1, Utf8.decode x.2)).find? fun x => Ascii.sameText x.1 name).map Prod.snd = _
  rw [List.find?_map, hsame, Option.map_map]
  rfl

end Headers

/-! ### The two lookups -/

section
variable {δ ω : Type} {h : Host δ ω} {s : State δ ω} {k : Nat} {r : Registration} {hs : List (Bytes × Bytes)}
  {name : String}

/-- The headers that a registration tells of: those that the engine reports, or those that it has reported. -/
def Host.Reports (h : Host δ ω) (s : State δ ω) (r : Registration) (hs : List (Bytes × Bytes)) : Prop :=
  match r.headers with
  | none => (h.engine (.headers r.id) s.shared.world).1 = .ok hs
  | some kept => kept = Headers.decode hs

theorem Host.Reports.headers (hr : s.worker.requests.get? k = some r) (hhs : h.Reports s r hs) :
    ∃ t, (h.headers k).exec s = (.ok (Headers.decode hs), t) := by
  unfold Host.headers Host.Reports at *
  rw [exec_bind_of_ok (exec_registration_of_some hr)]
  split at hhs
  · next heq =>
    rw [heq]
    dsimp only
    rw [exec_bind_of_ok (h.exec_call_of_ok hhs)]
    exact ⟨_, exec_bind_of_ok (exec_modifyRegistration _)⟩
  · next kept heq =>
    rw [heq]
    subst hhs
    exact ⟨s, rfl⟩

theorem Host.Reports.header (hname : Utf8.replacement ∉ name.toList) (hr : s.worker.requests.get? k = some r)
    (hhs : h.Reports s r hs) : ((h.answer k (.header name)).exec s).1 = .ok (Headers.findRaw? hs name) := by
  obtain ⟨t, ht⟩ := hhs.headers hr
  show ((h.header k name).exec s).1 = _
  rw [Host.header, exec_bind_of_ok ht, ← Headers.find?_decode hname]
  rfl

/-- Application code and resolvers that look for a header, by a name without U+FFFD, are answered alike: with
    the value of the first header of that name, up to the case of its letters, or with none. What the engine
    reports, of names and of values, need not be UTF-8. -/
theorem lookup_law (hname : Utf8.replacement ∉ name.toList) (hs : List (Bytes × Bytes)) :
    ∃ v, Headers.FirstNamed name hs v ∧
      (∀ {s k r}, s.worker.requests.get? k = some r → h.Reports s r hs →
        ((h.answer k (.header name)).exec s).1 = .ok v) ∧
      ∀ {s req} pool, (h.engine (.headers req) s.shared.world).1 = .ok hs →
        ((h.answerPeer req pool (.header name)).exec s).1 = .ok v := by
  refine ⟨_, Headers.firstNamed_findRaw? hs name, fun hr hhs => hhs.header hname hr, fun pool he => ?_⟩
  show ((h.call none (.headers _) >>= fun hs => pure (Headers.findRaw? hs name)).exec _).1 = _
  rw [exec_bind_of_ok (h.exec_call_of_ok he)]
  rfl

end

/-- Bytes that are not UTF-8 are found under U+FFFD once they have been made into text, and not before. -/
example : Headers.find? (Headers.decode [([0xFF], [])]) "\uFFFD" = some "" ∧
    Headers.findRaw? [([0xFF], [])] "\uFFFD" = none := by decide

/-- A host whose engine reports certain headers for every request. -/
def Host.reporting (hs : List (Bytes × Bytes)) : Host Unit Unit :=
  { prompt ⟨9⟩ (.finish (.ok .async)) with
    engine := fun
      | .headers _, w => (.ok hs, w)
      | c, w => Engine.prompt ⟨9⟩ c w }

/-- A name that is not UTF-8 comes first, then the name that is looked for in two spellings. -/
theorem lookup_law_when_repeated :
    let hs : List (Bytes × Bytes) := [([0xFF], [97]), ([65], [0xFF, 98]), ([97], [99])]
    let h := Host.reporting hs
    ∃ s, Reachable h s ∧ Utf8.replacement ∉ "a".toList ∧ Headers.FirstNamed "a" hs (some "\uFFFDb") ∧
      ((h.answer 0 (.header "a")).exec s).1 = .ok (some "\uFFFDb") ∧
      ((h.answerPeer ⟨1⟩ 7 (.header "a")).exec s).1 = .ok (some "\uFFFDb") := by
  intro hs h
  let s := ((h.run (.hook (.contentPhase ⟨1⟩) fun _ => .done)).exec State.fresh).2
  have hr : s.worker.requests.get? 0 = some { id := ⟨1⟩, serial := 1, phase := .suspended, location := some 1 } := by
    decide +kernel
  have hname : Utf8.replacement ∉ "a".toList := by decide
  obtain ⟨v, hv, hrequest, hresolver⟩ := lookup_law (h := h) hname hs
  have hpeer : ((h.answerPeer ⟨1⟩ 7 (.header "a")).exec s).1 = .ok (some "\uFFFDb") := rfl
  obtain rfl : v = some "\uFFFDb" := Except.ok.inj ((hresolver 7 rfl).symm.trans hpeer)
  exact ⟨s, Reachable.fresh.run _, hname, hv, hrequest hr rfl, hpeer⟩

end EngineBridge
