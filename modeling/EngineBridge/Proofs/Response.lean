import EngineBridge.Proofs.Ends

/-! The response of a registration, as the engine hears it call by call. Status and headers come first,
    in any number; then the header section goes out with a body behind it, which comes either in pieces
    or, its length having been announced, as a whole; and at last the engine is told of the end. -/

namespace EngineBridge

/-- Calls that make up the response to a request, up to its end. -/
def Call.responds : Call → Bool
  | setStatus _ _ | addHeader _ _ _ | setContentLength _ _ | setHeaderOnly _ | sendHeader _ | output _ _
  | finalize _ _ => true
  | log _ _ | location _ | method _ | uri _ | args _ | headers _ | readBody _ | body _ | mainOf _
  | subrequest _ _ _ | newAnchor _ | runPosted _ | setPeer _ _ => false

/-- Calls of a response in the order in which they are made, each with how it has ended. -/
abbrev Response := List (Call × Upshot)

namespace Response
variable {req : ReqId} {w w' pre post heads body tail pieces : Response} {x y : Call × Upshot}

/-! ### The words of a response -/

/-- The status is set and headers are added. -/
def Heads (req : ReqId) (w : Response) : Prop :=
  ∀ x ∈ w, (∃ code, x.1 = .setStatus req code) ∨ ∃ name value, x.1 = .addHeader req name value

/-- Pieces of a body go out, none of them empty or the last one. -/
def Pieces (req : ReqId) (w : Response) : Prop :=
  ∀ x ∈ w, ∃ data flush, data ≠ [] ∧ x.1 = .output req ⟨data, flush, false⟩

/-- The header section goes out, then the body in pieces, of which one may be the last. -/
inductive Streamed (req : ReqId) : Response → Prop
  | going {u : Upshot} {pieces : Response} : Pieces req pieces → Streamed req ((.sendHeader req, u) :: pieces)
  | closed {u v : Upshot} {pieces : Response} {data : Bytes} : Pieces req pieces →
    Streamed req ((.sendHeader req, u) :: (pieces ++ [(.output req ⟨data, false, true⟩, v)]))

/-- The length is announced, then the header section goes out, then the body of that length in one piece.
    An empty body is announced as none and does not go out, nor does any if the header section has not. -/
inductive Whole (req : ReqId) : Response → Prop
  | empty {u v x : Upshot} :
    Whole req [(.setContentLength req 0, u), (.setHeaderOnly req, v), (.sendHeader req, x)]
  | unsent {n : Nat} {u v : Upshot} : 0 < n → v ≠ .succeeded →
    Whole req [(.setContentLength req n, u), (.sendHeader req, v)]
  | full {data : Bytes} {u v : Upshot} : data ≠ [] →
    Whole req [(.setContentLength req data.length, u), (.sendHeader req, .succeeded),
      (.output req ⟨data, false, true⟩, v)]

/-- The engine panics before the header section of a body announced as a whole goes out. -/
inductive Broken (req : ReqId) : Response → Prop
  | length {n : Nat} : Broken req [(.setContentLength req n, .panicked)]
  | bodiless {u : Upshot} : Broken req [(.setContentLength req 0, u), (.setHeaderOnly req, .panicked)]

/-- The engine is told of the end, or not yet. -/
def Close (req : ReqId) (w : Response) : Prop := w = [] ∨ ∃ rc u, w = [(.finalize req rc, u)]

/-- What the engine hears of a response: status and headers, then perhaps the header section with a body,
    and then perhaps the end. -/
def Proper (req : ReqId) (w : Response) : Prop :=
  ∃ heads body tail, w = heads ++ body ++ tail ∧ Heads req heads ∧
    (body = [] ∨ Streamed req body ∨ Whole req body) ∧ Close req tail

/-- What the engine hears of a response in which it has panicked before the header section. -/
def CutShort (req : ReqId) (w : Response) : Prop :=
  ∃ heads body tail, w = heads ++ body ++ tail ∧ Heads req heads ∧ Broken req body ∧ Close req tail

theorem parts (hw : Proper req w ∨ CutShort req w) : ∃ heads body tail, w = heads ++ body ++ tail ∧
    Heads req heads ∧ (body = [] ∨ Streamed req body ∨ Whole req body ∨ Broken req body) ∧ Close req tail := by
  rcases hw with ⟨heads, body, tail, rfl, hh, hb, ht⟩ | ⟨heads, body, tail, rfl, hh, hb, ht⟩
  · exact ⟨heads, body, tail, rfl, hh, hb.imp_right fun hb => hb.imp_right .inl, ht⟩
  · exact ⟨heads, body, tail, rfl, hh, .inr (.inr (.inr hb)), ht⟩

/-- All calls of a response are about its request. -/
theorem req?_eq (hw : Proper req w ∨ CutShort req w) : ∀ x ∈ w, x.1.req? = some req := by
  obtain ⟨heads, body, tail, rfl, hh, hb, ht⟩ := parts hw
  have hpieces : ∀ {pieces}, Pieces req pieces → ∀ x ∈ pieces, x.1.req? = some req := fun hp x hx => by
    obtain ⟨data, flush, -, hx⟩ := hp x hx
    rw [hx]
    rfl
  have hbody : ∀ x ∈ body, x.1.req? = some req := by
    rcases hb with rfl | (hp | hp) | hb | hb
    · simp
    · exact List.forall_mem_cons.mpr ⟨rfl, hpieces hp⟩
    · refine List.forall_mem_cons.mpr ⟨rfl, List.forall_mem_append.mpr ⟨hpieces hp, ?_⟩⟩
      simp [Call.req?]
    · cases hb <;> simp [Call.req?]
    · cases hb <;> simp [Call.req?]
  refine List.forall_mem_append.mpr ⟨List.forall_mem_append.mpr ⟨fun x hx => ?_, hbody⟩, ?_⟩
  · rcases hh x hx with ⟨code, hx⟩ | ⟨name, value, hx⟩ <;> rw [hx] <;> rfl
  · rcases ht with rfl | ⟨rc, u, rfl⟩ <;> simp [Call.req?]

/-! ### What follows what -/

/-- The place of a call in a response. -/
def rank : Call → Nat
  | .setStatus _ _ | .addHeader _ _ _ => 0
  | .setContentLength _ _ => 1
  | .setHeaderOnly _ => 2
  | .sendHeader _ => 3
  | .output _ chunk => if chunk.last then 5 else 4
  | .finalize _ _ => 6
  | _ => 7

/-- A call may follow another one: its place is a later one, or the same if that can be taken again. -/
def Follows (x y : Call × Upshot) : Prop :=
  rank x.1 < rank y.1 ∨ rank x.1 = rank y.1 ∧ (rank x.1 = 0 ∨ rank x.1 = 4)

theorem Heads.rank_eq (hw : Heads req w) : ∀ x ∈ w, rank x.1 = 0 := by
  intro x hx
  rcases hw x hx with ⟨code, hx⟩ | ⟨name, value, hx⟩ <;> rw [hx] <;> rfl

theorem Pieces.rank_eq (hw : Pieces req w) : ∀ x ∈ w, rank x.1 = 4 := by
  intro x hx
  obtain ⟨data, flush, -, hx⟩ := hw x hx
  rw [hx]
  rfl

theorem Close.rank_eq (hw : Close req w) : ∀ x ∈ w, rank x.1 = 6 := by
  rcases hw with rfl | ⟨rc, u, rfl⟩ <;> simp [rank]

theorem pairwise_of_rank {n : Nat} (hw : ∀ x ∈ w, rank x.1 = n) (hn : n = 0 ∨ n = 4) : w.Pairwise Follows :=
  List.pairwise_of_forall_mem_list fun x hx y hy => .inr ⟨(hw x hx).trans (hw y hy).symm, hw x hx ▸ hn⟩

/-- Calls in their order, and calls of later places after them. -/
theorem pairwise_append (hw : w.Pairwise Follows) (hw' : w'.Pairwise Follows)
    (hlt : ∀ x ∈ w, ∀ y ∈ w', rank x.1 < rank y.1) : (w ++ w').Pairwise Follows :=
  List.pairwise_append.mpr ⟨hw, hw', fun x hx y hy => .inl (hlt x hx y hy)⟩

/-- A body in its order, between what comes before a body and the end. -/
structure Amid (w : Response) : Prop where
  pairwise : w.Pairwise Follows
  rank_le : ∀ x ∈ w, 1 ≤ rank x.1 ∧ rank x.1 < 6

namespace Amid

theorem singleton (hx : 1 ≤ rank x.1 ∧ rank x.1 < 6) : Amid [x] :=
  ⟨List.pairwise_singleton _ _, by simpa using hx⟩

theorem append (hw : Amid w) (hw' : Amid w') (hlt : ∀ x ∈ w, ∀ y ∈ w', rank x.1 < rank y.1) : Amid (w ++ w') :=
  ⟨pairwise_append hw.pairwise hw'.pairwise hlt, List.forall_mem_append.mpr ⟨hw.rank_le, hw'.rank_le⟩⟩

theorem of_pieces (hw : Pieces req w) : Amid w :=
  ⟨pairwise_of_rank hw.rank_eq (.inr rfl), fun x hx => by simp [hw.rank_eq x hx]⟩

end Amid

theorem Streamed.amid (hw : Streamed req w) : Amid w := by
  cases hw with
  | @going u pieces hp =>
    refine .append (w := [_]) (.singleton (by simp [rank])) (.of_pieces hp) fun x hx y hy => ?_
    rw [List.mem_singleton.mp hx, hp.rank_eq y hy]
    exact Nat.lt_succ_self 3
  | @closed u v pieces data hp =>
    have hlast : Amid [(Call.output req ⟨data, false, true⟩, v)] := .singleton (by simp [rank])
    have hrest : Amid (pieces ++ [(Call.output req ⟨data, false, true⟩, v)]) :=
      .append (.of_pieces hp) hlast fun x hx y hy => by
        rw [List.mem_singleton.mp hy, hp.rank_eq x hx]
        exact Nat.lt_succ_self 4
    refine .append (w := [_]) (.singleton (by simp [rank])) hrest fun x hx y hy => ?_
    rw [List.mem_singleton.mp hx]
    rcases List.mem_append.mp hy with hy | hy
    · rw [hp.rank_eq y hy]
      exact Nat.lt_succ_self 3
    · rw [List.mem_singleton.mp hy]
      exact (by decide : 3 < 5)

theorem Whole.amid (hw : Whole req w) : Amid w := by
  cases hw <;> constructor <;> simp [Follows, rank]

theorem Broken.amid (hw : Broken req w) : Amid w := by
  cases hw <;> constructor <;> simp [Follows, rank]

/-- The calls of a response are made in their order, whatever the engine makes of them. -/
theorem pairwise (hw : Proper req w ∨ CutShort req w) : w.Pairwise Follows ∧ ∀ x ∈ w, rank x.1 ≤ 6 := by
  obtain ⟨heads, body, tail, rfl, hh, hb, ht⟩ := parts hw
  have hb : Amid body := by
    rcases hb with rfl | hb | hb | hb
    · exact ⟨.nil, by simp⟩
    · exact hb.amid
    · exact hb.amid
    · exact hb.amid
  have hclose : tail.Pairwise Follows := by
    rcases ht with rfl | ⟨rc, u, rfl⟩ <;> simp
  have hfront : (heads ++ body).Pairwise Follows :=
    pairwise_append (pairwise_of_rank hh.rank_eq (.inl rfl)) hb.pairwise fun x hx y hy => by
      rw [hh.rank_eq x hx]
      exact (hb.rank_le y hy).1
  have hlt : ∀ x ∈ heads ++ body, rank x.1 < 6 :=
    List.forall_mem_append.mpr ⟨fun x hx => by simp [hh.rank_eq x hx], fun x hx => (hb.rank_le x hx).2⟩
  refine ⟨pairwise_append hfront hclose fun x hx y hy => by rw [ht.rank_eq y hy]; exact hlt x hx, ?_⟩
  exact List.forall_mem_append.mpr ⟨fun x hx => Nat.le_of_lt (hlt x hx), fun x hx => Nat.le_of_eq (ht.rank_eq x hx)⟩

/-! ### What a response comes to -/

/-- The lengths that are announced. -/
def lengths (w : Response) : List Nat := w.filterMap fun
  | (.setContentLength _ n, _) => some n
  | _ => none

/-- The chunks of the body. -/
def chunks (w : Response) : List Chunk := w.filterMap fun
  | (.output _ chunk, _) => some chunk
  | _ => none

/-- The bytes of the body. -/
def bytes (w : Response) : Bytes := w.chunks.flatMap Chunk.data

/-- If a length is announced, then once, and the body has that length, unless the header section has not
    gone out; then there is none. -/
def Fits (req : ReqId) (w : Response) : Prop :=
  ∀ n ∈ w.lengths, w.lengths = [n] ∧ (w.bytes.length = n ∨ w.chunks = [] ∧ (.sendHeader req, .succeeded) ∉ w)

/-- The header section goes out once and is not touched after that, no chunk comes after the last one,
    nothing after the end, and the body fits the length announced. -/
structure Settled (req : ReqId) (w : Response) : Prop where
  header : ∀ {pre post r u}, w = pre ++ (.sendHeader r, u) :: post →
    ∀ x ∈ post, (∃ r' chunk, x.1 = .output r' chunk) ∨ ∃ r' rc, x.1 = .finalize r' rc
  last : ∀ {pre post r chunk u}, w = pre ++ (.output r chunk, u) :: post → chunk.last →
    ∀ x ∈ post, ∃ r' rc, x.1 = .finalize r' rc
  finish : ∀ {pre post r rc u}, w = pre ++ (.finalize r rc, u) :: post → post = []
  length : Fits req w

theorem rank_after (hw : Proper req w ∨ CutShort req w) (heq : w = pre ++ x :: post) :
    ∀ y ∈ post, Follows x y ∧ rank y.1 ≤ 6 := by
  obtain ⟨hpair, hrank⟩ := pairwise hw
  subst heq
  have hx := (List.pairwise_append.mp hpair).2.1
  exact fun y hy => ⟨(List.pairwise_cons.mp hx).1 y hy, hrank y (by simp [hy])⟩

@[simp] theorem lengths_append (w w' : Response) : lengths (w ++ w') = lengths w ++ lengths w' :=
  List.filterMap_append

@[simp] theorem chunks_append (w w' : Response) : chunks (w ++ w') = chunks w ++ chunks w' :=
  List.filterMap_append

theorem Heads.nothing (hw : Heads req w) : lengths w = [] ∧ chunks w = [] ∧ ∀ u, (.sendHeader req, u) ∉ w := by
  refine ⟨List.filterMap_eq_nil_iff.mpr fun ⟨c, u⟩ hx => ?_, List.filterMap_eq_nil_iff.mpr fun ⟨c, u⟩ hx => ?_,
    fun u hx => ?_⟩
  · rcases hw _ hx with ⟨code, rfl⟩ | ⟨name, value, rfl⟩ <;> rfl
  · rcases hw _ hx with ⟨code, rfl⟩ | ⟨name, value, rfl⟩ <;> rfl
  · rcases hw _ hx with ⟨code, hx⟩ | ⟨name, value, hx⟩ <;> cases hx

theorem Close.nothing (hw : Close req w) : lengths w = [] ∧ chunks w = [] ∧ ∀ u, (.sendHeader req, u) ∉ w := by
  rcases hw with rfl | ⟨rc, u, rfl⟩
  · exact ⟨rfl, rfl, by simp⟩
  · exact ⟨rfl, rfl, by simp⟩

theorem Pieces.lengths_eq (hw : Pieces req w) : lengths w = [] :=
  List.filterMap_eq_nil_iff.mpr fun ⟨c, u⟩ hx => by
    obtain ⟨data, flush, -, rfl⟩ := hw _ hx
    rfl

/-- A body that comes in pieces has no length announced. -/
theorem Streamed.lengths_eq (hw : Streamed req w) : lengths w = [] := by
  cases hw with
  | going hp => exact hp.lengths_eq
  | @closed u v pieces data hp =>
    show lengths (pieces ++ [(.output req ⟨data, false, true⟩, v)]) = []
    rw [lengths_append, hp.lengths_eq]
    rfl

theorem Whole.fits (hw : Whole req w) : Fits req w := by
  cases hw with
  | empty => simp [Fits, lengths, bytes, chunks]
  | unsent hn hv => simp [Fits, lengths, bytes, chunks, hv.symm]
  | full hd => simp [Fits, lengths, bytes, chunks]

theorem Broken.fits (hw : Broken req w) : Fits req w := by
  cases hw <;> simp [Fits, lengths, bytes, chunks]

theorem fits (hw : Proper req w ∨ CutShort req w) : Fits req w := by
  obtain ⟨heads, body, tail, rfl, hh, hb, ht⟩ := parts hw
  have hbody : Fits req body := by
    rcases hb with rfl | hb | hb | hb
    · exact fun n hn => by cases hn
    · exact fun n hn => by simp [hb.lengths_eq] at hn
    · exact hb.fits
    · exact hb.fits
  obtain ⟨hhl, hhc, hhs⟩ := hh.nothing
  obtain ⟨htl, htc, hts⟩ := ht.nothing
  unfold Fits at hbody ⊢
  simpa only [bytes, lengths_append, chunks_append, hhl, hhc, htl, htc, List.nil_append, List.append_nil,
    List.mem_append, hhs, hts, false_or, or_false] using hbody

theorem settled (hw : Proper req w ∨ CutShort req w) : Settled req w where
  header heq x hx := by
    obtain ⟨hf, hle⟩ := rank_after hw heq x hx
    have hlt : 3 < rank x.1 := by simpa [Follows, rank] using hf
    cases hc : x.1 <;> simp [hc, rank] at hlt hle ⊢
  last heq hlast x hx := by
    obtain ⟨hf, hle⟩ := rank_after hw heq x hx
    have hlt : 5 < rank x.1 := by simpa [Follows, rank, hlast] using hf
    cases hc : x.1 <;> simp [hc, rank] at hlt hle ⊢
    split at hlt <;> omega
  finish {pre post r rc u} heq := by
    refine List.eq_nil_iff_forall_not_mem.mpr fun x hx => ?_
    obtain ⟨hf, hle⟩ := rank_after hw heq x hx
    have hlt : 6 < rank x.1 := by simpa [Follows, rank] using hf
    exact absurd hle (Nat.not_le_of_gt hlt)
  length := fits hw

end Response
end EngineBridge
