import BlindBoard.Proof.Names
import BlindBoard.Proof.Moves

/-!
# An add and its pending call

At any moment at most one call is pending for an add, and it finds the add in
the stage it was sent for (`Pipeline`): an image is named when its upload is
sent, has a download URL when the upload is carried out, and the word is
written when its document is. So the stages of an add follow one another, no
two adds share a `uid` or an image, and a word is written at most once.
The invariant speaks of the log and the calls in flight only, not of what the
cloud holds.
-/

namespace BlindBoard

open Lib Spec

/-- The board that a launch has made so far. -/
abbrev State.board (s : State) : Board := Board.ofLog s.app.log

/-- The request has been carried out. -/
def InFlight.done (p : InFlight) : Bool := p.answer.any fun a => a.reply = .done

/-- The add is in the stage that `p` was sent for, or just past it once `p` is carried out. -/
def Awaits (e : Entry) (p : InFlight) : Prop :=
  match p.call with
  | .dataTask _ => e.fileName = none ∧ e.url = none ∧ e.writtenTime = none
  | .putData _ fileName _ => e.fileName = some fileName ∧ e.url.isSome = p.done ∧ e.writtenTime = none
  | .downloadURL _ fileName => e.fileName = some fileName ∧ e.url.isSome = true ∧ e.writtenTime = none
  | .setData _ writtenTime _ fileName =>
    e.fileName = some fileName ∧ e.url.isSome = true ∧
      e.writtenTime = if p.done then some writtenTime else none
  | _ => True

/-- `e` is the add of the word `w`. -/
def Adds (e : Entry) (w : Word) : Prop := e.saved = w

theorem Adds.uid {e : Entry} {w : Word} (h : Adds e w) : e.uid = w.uid := congrArg Word.uid h

theorem Adds.title {e : Entry} {w : Word} (h : Adds e w) : e.title = w.title := congrArg Word.title h

theorem Adds.content {e : Entry} {w : Word} (h : Adds e w) : e.content = w.content := congrArg Word.content h

/-- The invariant of the adds, with the identifiers in use and the calls in flight. -/
structure Pipeline (used : List String) (b : Board) (net : List InFlight) : Prop where
  uids : (b.map Entry.uid).Nodup
  uid : ∀ e ∈ b, e.uid ∈ used ∧ IsUUID e.uid
  fileName : ∀ e ∈ b, ∀ f, e.fileName = some f → f ∈ used ∧ IsUUID f
  own : ∀ e ∈ b, ∀ e' ∈ b, ∀ f, e.fileName = some f → e'.fileName = some f → e = e'
  named : ∀ e ∈ b, e.url.isSome = true → e.fileName.isSome = true
  uploaded : ∀ e ∈ b, e.writtenTime.isSome = true → e.url.isSome = true
  pending : ∀ p ∈ net, ∀ w, p.call.word = some w → ∃ e ∈ b, Adds e w ∧ Awaits e p
  single : ∀ p ∈ net, ∀ q ∈ net, ∀ w w', p.call.word = some w → q.call.word = some w' → w.uid = w'.uid → p = q

/-- A call that belongs to no add leaves the adds as they are when it is sent. -/
theorem Spec.Board.step_issued {b : Board} {t : Nat} {call : Call} (h : call.word = none) :
    b.step (.issued t call) = b := by
  cases call <;> first | rfl | cases h

theorem State.board_serve (s : State) (p : InFlight) (r : Request) (outcome : Outcome) :
    (s.serve p r outcome).board = s.board.step (.served p.ticket p.call outcome) :=
  Board.ofLog_append ..

/-- What a move does to the adds and to the cloud. -/
inductive BoardMove (s s' : State) : Prop
  | same (hb : s'.board = s.board) (hcloud : s'.cloud = s.cloud)
  | saved (sheet : Nat) (title content : String) (uid : UUID) (hf : uid.uuidString ∉ s.used)
      (hb : s'.board = s.board ++ [⟨sheet, title, content, uid.uuidString, none, none, none, false, false⟩])
      (hcloud : s'.cloud = s.cloud)
  | named {p : InFlight} {w : Word} (hp : p ∈ s.app.net) (hc : p.call = .dataTask w) (fileName : UUID)
      (hf : fileName.uuidString ∉ s.used)
      (hb : s'.board = s.board.update w.uid fun e => { e with fileName := some fileName.uuidString })
      (hcloud : s'.cloud = s.cloud)
  | served {p : InFlight} {r : Request} (hp : p ∈ s.app.net) (ha : p.answer = none)
      (hr : p.call.request s.app.uid = some r) (outcome : Outcome) (hs : s' = s.serve p r outcome)

theorem Move.board {s s' : State} (h : Move s s') : BoardMove s s' := by
  cases h with
  | saved sheet title content uid url hf =>
    refine .saved sheet title content uid hf ?_ rfl
    cases url
    · exact Board.ofLog_append ..
    · simp only [App.addContent, App.issue, App.record, State.board, Board.ofLog_append, if_true]
      rfl
  | uploading hp hc fileName hf imageData =>
    refine .named hp hc fileName hf ?_ rfl
    simp only [App.issue, App.take, State.board, Board.ofLog_append]
    rfl
  | served hp ha hr outcome => exact .served hp ha hr outcome rfl
  | issued call hA hn =>
    refine .same ?_ rfl
    simp only [App.issue, State.board, Board.ofLog_append, Board.step_issued hA.word]
  | fresh | number | screens | rows | dropped => exact .same rfl rfl
  | _ =>
    refine .same ?_ rfl
    simp only [App.issue, App.take, App.record, App.boardLoaded, State.board, Board.ofLog_append]
    rfl

theorem Awaits.stages {e : Entry} {p : InFlight} {w : Word} (h : Awaits e p) (hw : p.call.word = some w) :
    (e.url.isSome = true → e.fileName.isSome = true) ∧
    (e.writtenTime.isSome = true → e.url.isSome = true) := by
  obtain ⟨t, call, answer⟩ := p
  cases call <;> simp only [Awaits, Call.word, reduceCtorEq] at h hw
  case dataTask => simp [h]
  case putData => simp [h]
  case downloadURL => simp [h]
  case setData => simp [h]

namespace Pipeline

variable {used used' : List String} {b : Board} {net net' : List InFlight}

theorem empty (used : List String) : Pipeline used [] [] := by
  constructor <;> simp

/-- The add of a pending call. -/
theorem awaits (h : Pipeline used b net) {p : InFlight} {w : Word} (hp : p ∈ net) (hw : p.call.word = some w)
    {e : Entry} (he : e ∈ b) (hu : e.uid = w.uid) : Adds e w ∧ Awaits e p := by
  obtain ⟨e', he', ha, hA⟩ := h.pending p hp w hw
  obtain rfl := Board.eq_of_uid h.uids he he' (hu.trans ha.uid.symm)
  exact ⟨ha, hA⟩

/-- Calls end and other calls are sent; identifiers are generated. -/
theorem sub (h : Pipeline used b net) (hu : used ⊆ used') (hn : ∀ p ∈ net', p.call.word ≠ none → p ∈ net) :
    Pipeline used' b net' where
  uids := h.uids
  uid e he := ⟨hu (h.uid e he).1, (h.uid e he).2⟩
  fileName e he f hf := ⟨hu (h.fileName e he f hf).1, (h.fileName e he f hf).2⟩
  own := h.own
  named := h.named
  uploaded := h.uploaded
  pending p hp w hw := h.pending p (hn p hp (by simp [hw])) w hw
  single p hp q hq w w' hw hw' := h.single p (hn p hp (by simp [hw])) q (hn q hq (by simp [hw'])) w w' hw hw'

/-- A change of the adds that no stage depends on. -/
theorem mark (h : Pipeline used b net) {k : Entry → Entry}
    (hk : ∀ e, ∃ d i, k e = { e with deleted := d, imageDeleted := i }) : Pipeline used (b.map k) net where
  uids := by
    have : Entry.uid ∘ k = Entry.uid := by
      funext e
      obtain ⟨d, i, hk⟩ := hk e
      simp [hk]
    rw [List.map_map, this]
    exact h.uids
  uid := by
    simp only [List.mem_map, forall_exists_index, and_imp, forall_apply_eq_imp_iff₂]
    intro e he
    obtain ⟨d, i, hk⟩ := hk e
    simpa [hk] using h.uid e he
  fileName := by
    simp only [List.mem_map, forall_exists_index, and_imp, forall_apply_eq_imp_iff₂]
    intro e he
    obtain ⟨d, i, hk⟩ := hk e
    simpa [hk] using h.fileName e he
  own := by
    simp only [List.mem_map, forall_exists_index, and_imp, forall_apply_eq_imp_iff₂]
    intro e he e' he' f hf hf'
    obtain ⟨_, _, hk₁⟩ := hk e
    obtain ⟨_, _, hk₂⟩ := hk e'
    rw [h.own e he e' he' f (by simpa [hk₁] using hf) (by simpa [hk₂] using hf')]
  named := by
    simp only [List.mem_map, forall_exists_index, and_imp, forall_apply_eq_imp_iff₂]
    intro e he
    obtain ⟨d, i, hk⟩ := hk e
    simpa [hk] using h.named e he
  uploaded := by
    simp only [List.mem_map, forall_exists_index, and_imp, forall_apply_eq_imp_iff₂]
    intro e he
    obtain ⟨d, i, hk⟩ := hk e
    simpa [hk] using h.uploaded e he
  pending p hp w hw := by
    obtain ⟨e, he, ha, hA⟩ := h.pending p hp w hw
    obtain ⟨d, i, hk⟩ := hk e
    refine ⟨k e, List.mem_map_of_mem he, ?_, ?_⟩
    · rw [hk]
      exact ha
    · rw [hk]
      exact hA
  single := h.single

/-- An add starts. -/
theorem start (h : Pipeline used b net) (sheet : Nat) {w : Word} (hf : w.uid ∉ used) (hw : IsUUID w.uid) :
    Pipeline (w.uid :: used)
      (b ++ [⟨sheet, w.title, w.content, w.uid, none, none, none, false, false⟩]) net := by
  have new : ∀ e ∈ b, e.uid ≠ w.uid := fun e he hu => hf (hu ▸ (h.uid e he).1)
  constructor
  case uids => exact Board.uids_append h.uids new
  case uid =>
    simp only [List.mem_append, List.mem_singleton]
    rintro e (he | rfl)
    · exact ⟨List.mem_cons_of_mem _ (h.uid e he).1, (h.uid e he).2⟩
    · exact ⟨List.mem_cons_self, hw⟩
  case fileName =>
    simp only [List.mem_append, List.mem_singleton]
    rintro e (he | rfl) f he'
    · exact ⟨List.mem_cons_of_mem _ (h.fileName e he f he').1, (h.fileName e he f he').2⟩
    · cases he'
  case own =>
    simp only [List.mem_append, List.mem_singleton]
    rintro e (he | rfl) e' (he' | rfl) f hf hf'
    · exact h.own e he e' he' f hf hf'
    · cases hf'
    · cases hf
    · cases hf
  case named =>
    simp only [List.mem_append, List.mem_singleton]
    rintro e (he | rfl)
    · exact h.named e he
    · simp
  case uploaded =>
    simp only [List.mem_append, List.mem_singleton]
    rintro e (he | rfl)
    · exact h.uploaded e he
    · simp
  case pending =>
    intro p hp w' hw'
    obtain ⟨e, he, hA⟩ := h.pending p hp w' hw'
    exact ⟨e, List.mem_append_left _ he, hA⟩
  case single => exact h.single

/-- The first call of an add is sent. -/
theorem begin (h : Pipeline used b net) {p : InFlight} {w : Word} (hc : p.call = .dataTask w) {e : Entry}
    (he : e ∈ b) (ha : Adds e w) (hA : Awaits e p)
    (hn : ∀ q ∈ net, ∀ w', q.call.word = some w' → w'.uid ≠ w.uid) :
    Pipeline used b (net ++ [p]) where
  __ := h
  pending := by
    simp only [List.mem_append, List.mem_singleton]
    rintro q (hq | rfl) w' hw'
    · exact h.pending q hq w' hw'
    · obtain rfl : w = w' := by simpa [hc, Call.word] using hw'
      exact ⟨e, he, ha, hA⟩
  single := by
    have hpw : ∀ w', p.call.word = some w' → w' = w := by simp [hc, Call.word, eq_comm]
    simp only [List.mem_append, List.mem_singleton]
    rintro q (hq | rfl) q' (hq' | rfl) w₁ w₂ h₁ h₂ hu
    · exact h.single q hq q' hq' w₁ w₂ h₁ h₂ hu
    · exact absurd (hu.trans (by rw [hpw w₂ h₂])) (hn q hq w₁ h₁)
    · exact absurd (hu.symm.trans (by rw [hpw w₁ h₁])) (hn q' hq' w₂ h₂)
    · rfl

/-- The call of an add takes the place of another, and the add passes to its next stage. -/
theorem advance (h : Pipeline used b net) {p p' : InFlight} {w : Word}
    (hp : p ∈ net) (hw : p.call.word = some w)
    (hw' : p'.call.word = some w) {g : Entry → Entry}
    (hg : ∀ e, (g e).saved = e.saved)
    (hA : ∀ e, Awaits e p → Awaits (g e) p') (hu : used ⊆ used')
    (hf : ∀ e f, (g e).fileName = some f → e.fileName = some f ∨ f ∉ used ∧ f ∈ used' ∧ IsUUID f) :
    Pipeline used' (b.update w.uid g) (net.filter (fun q => q.ticket ≠ p.ticket) ++ [p']) := by
  have uid : ∀ e, (g e).uid = e.uid := fun e => congrArg Word.uid (hg e)
  have next : ∀ e ∈ b, e.uid = w.uid → Awaits (g e) p' := fun e he hu => hA e (h.awaits hp hw he hu).2
  have others : ∀ q ∈ net.filter (fun q => q.ticket ≠ p.ticket), q ∈ net ∧
      ∀ w', q.call.word = some w' → w'.uid ≠ w.uid := by
    intro q hq
    obtain ⟨hq, hne⟩ := List.mem_filter.mp hq
    refine ⟨hq, fun w' hw' hu => ?_⟩
    rw [h.single q hq p hp w' w hw' hw hu] at hne
    simp at hne
  constructor
  case uids =>
    rw [Board.uids_update uid]
    exact h.uids
  case uid =>
    intro e he
    rcases Board.mem_update_cases he with ⟨he, -⟩ | ⟨e₀, he₀, -, rfl⟩
    · exact ⟨hu (h.uid e he).1, (h.uid e he).2⟩
    · rw [uid]
      exact ⟨hu (h.uid e₀ he₀).1, (h.uid e₀ he₀).2⟩
  case fileName =>
    intro e he f hef
    have old : ∀ e ∈ b, e.fileName = some f → f ∈ used' ∧ IsUUID f :=
      fun e he hef => ⟨hu (h.fileName e he f hef).1, (h.fileName e he f hef).2⟩
    rcases Board.mem_update_cases he with ⟨he, -⟩ | ⟨e₀, he₀, -, rfl⟩
    · exact old e he hef
    · rcases hf e₀ f hef with hef | hef
      · exact old e₀ he₀ hef
      · exact hef.2
  case own =>
    -- a name that is not fresh is the add's old one
    have name : ∀ e ∈ b, ∀ e' ∈ b, e.uid = w.uid → ∀ f,
      (g e).fileName = some f → e'.fileName = some f → e = e' := by
      intro e he e' he' _ f hef he'f
      rcases hf e f hef with hef | hef
      · exact h.own e he e' he' f hef he'f
      · exact absurd (h.fileName e' he' f he'f).1 hef.1
    intro e he e' he' f hef he'f
    rcases Board.mem_update_cases he with ⟨he, hne⟩ | ⟨e₁, he₁, hu₁, rfl⟩ <;>
      rcases Board.mem_update_cases he' with ⟨he', hne'⟩ | ⟨e₂, he₂, hu₂, rfl⟩
    · exact h.own e he e' he' f hef he'f
    · exact absurd (name e₂ he₂ e he hu₂ f he'f hef ▸ hu₂) hne
    · exact absurd (name e₁ he₁ e' he' hu₁ f hef he'f ▸ hu₁) hne'
    · rw [Board.eq_of_uid h.uids he₁ he₂ (hu₁.trans hu₂.symm)]
  case named =>
    intro e he
    rcases Board.mem_update_cases he with ⟨he, -⟩ | ⟨e₀, he₀, hu₀, rfl⟩
    · exact h.named e he
    · exact ((next e₀ he₀ hu₀).stages hw').1
  case uploaded =>
    intro e he
    rcases Board.mem_update_cases he with ⟨he, -⟩ | ⟨e₀, he₀, hu₀, rfl⟩
    · exact h.uploaded e he
    · exact ((next e₀ he₀ hu₀).stages hw').2
  case pending =>
    simp only [List.mem_append, List.mem_singleton]
    rintro q (hq | rfl) w' hqw
    · obtain ⟨hq, hne⟩ := others q hq
      obtain ⟨e, he, ha, hA⟩ := h.pending q hq w' hqw
      exact ⟨e, Board.mem_update_of_ne he (ha.uid ▸ hne w' hqw), ha, hA⟩
    · cases hw'.symm.trans hqw
      obtain ⟨e, he, ha, -⟩ := h.pending p hp w hw
      exact ⟨g e, Board.mem_update_of_eq he ha.uid, (hg e).trans ha, next e he ha.uid⟩
  case single =>
    simp only [List.mem_append, List.mem_singleton]
    rintro q (hq | rfl) q' (hq' | rfl) w₁ w₂ h₁ h₂ hu
    · exact h.single q (others q hq).1 q' (others q' hq').1 w₁ w₂ h₁ h₂ hu
    · cases hw'.symm.trans h₂
      exact absurd hu ((others q hq).2 w₁ h₁)
    · cases hw'.symm.trans h₁
      exact absurd hu.symm ((others q' hq').2 w₂ h₂)
    · rfl

/-- The same, when the add stays in its stage. -/
theorem pass (h : Pipeline used b net) {p p' : InFlight} {w : Word} (hp : p ∈ net) (hw : p.call.word = some w)
    (hw' : p'.call.word = some w) (hA : ∀ e, Awaits e p → Awaits e p') :
    Pipeline used b (net.filter (fun q => q.ticket ≠ p.ticket) ++ [p']) := by
  have := h.advance hp hw hw' (g := fun e => e) (fun _ => rfl) hA (fun _ h => h) fun _ _ => .inl
  rwa [Board.update_id] at this

/-! ## Every move keeps it -/

/-- A call that belongs to no add is sent. -/
theorem issued {a : App} {call : Call} (h : Pipeline used (Board.ofLog a.log) a.net) (hw : call.word = none)
    (hu : used ⊆ used') : Pipeline used' (Board.ofLog (a.issue call).log) (a.issue call).net := by
  rw [App.issue, Board.ofLog_append, Board.step_issued hw]
  refine h.sub hu fun p hp hpw => ?_
  rcases List.mem_append.mp hp with hp | hp
  · exact hp
  · rw [List.mem_singleton.mp hp] at hpw
    exact absurd hw hpw

theorem served {s : State} (h : Pipeline s.used s.board s.app.net) {p : InFlight} {r : Request}
    (hp : p ∈ s.app.net) (ha : p.answer = none) (hr : p.call.request s.app.uid = some r) (outcome : Outcome) :
    Pipeline s.used (s.serve p r outcome).board (s.serve p r outcome).app.net := by
  obtain ⟨t, call, answer⟩ := p
  cases ha
  simp only [State.serve, App.take, State.board, Board.ofLog_append]
  have other : ∀ a : Option Answer, call.word = none →
      Pipeline s.used s.board (s.app.net.filter (fun q => q.ticket ≠ t) ++ [⟨t, call, a⟩]) := by
    refine fun a hw => h.sub (fun _ h => h) fun q hq hqw => ?_
    rcases List.mem_append.mp hq with hq | hq
    · exact (List.mem_filter.mp hq).1
    · rw [List.mem_singleton.mp hq] at hqw
      exact absurd hw hqw
  cases call with
  | dataTask w => cases hr
  | putData w f d =>
    cases hr
    cases outcome with
    | failure => exact h.pass hp rfl rfl fun e hA => hA
    | success url =>
      refine h.advance hp rfl rfl (fun _ => rfl) (fun e hA => ?_) (fun _ h => h) fun _ _ => .inl
      exact ⟨hA.1, rfl, hA.2.2⟩
  | downloadURL w f =>
    cases hr
    cases outcome <;> exact h.pass hp rfl rfl fun e hA => hA
  | setData w writtenTime u f =>
    cases hr
    cases outcome with
    | failure => exact h.pass hp rfl rfl fun e hA => hA
    | success url =>
      refine h.advance hp rfl rfl (fun _ => rfl) (fun e hA => ?_) (fun _ h => h) fun _ _ => .inl
      exact ⟨hA.1, hA.2.1, rfl⟩
  | deleteDocument screen uid =>
    cases hr
    cases outcome with
    | failure => exact other _ rfl
    | success url =>
      refine (other _ rfl).mark fun e => ?_
      split
      · exact ⟨true, _, rfl⟩
      · exact ⟨_, _, rfl⟩
  | deleteObject screen f =>
    cases hr
    cases outcome with
    | failure => exact other _ rfl
    | success url =>
      refine (other _ rfl).mark fun e => ?_
      split
      · exact ⟨_, true, rfl⟩
      · exact ⟨_, _, rfl⟩
  | loadData => cases outcome <;> exact other _ rfl
  | reloadComment screen uid => cases outcome <;> exact other _ rfl
  | addDocument screen uid autoID c => cases outcome <;> exact other _ rfl

theorem move {s s' : State} (h : Pipeline s.used s.board s.app.net) (hm : Move s s') :
    Pipeline s'.used s'.board s'.app.net := by
  cases hm with
  | fresh u => exact h.sub (fun _ => List.mem_cons_of_mem u) fun p hp _ => hp
  | number => exact h
  | screens => exact h
  | rows => exact h
  | closed | deleted | opened =>
    simpa [State.board, App.record, Board.step] using h
  | loaded hp hc ha =>
    simp only [App.boardLoaded, State.board, Board.ofLog_append]
    exact h.sub (fun _ h => h) fun p hp _ => App.mem_take hp
  | reloaded hp hc ha hd =>
    simp only [State.board, Board.ofLog_append]
    exact h.sub (fun _ h => h) fun p hp _ => App.mem_take hp
  | dropped hp => exact h.sub (fun _ h => h) fun p hp _ => App.mem_take hp
  | saved sheet title content uid url hf =>
    have hs := h.start (w := ⟨title, content, uid.uuidString, "", ""⟩) sheet hf uid.isUUID
    cases url with
    | false => simpa [State.board, App.addContent, App.record, Board.step] using hs
    | true =>
      simp only [App.addContent, App.issue, App.record, State.board, Board.ofLog_append, if_true]
      refine hs.begin (p := ⟨s.app.next, .dataTask _, none⟩) rfl
        (List.mem_append_right _ List.mem_cons_self) rfl ⟨rfl, rfl, rfl⟩ ?_
      intro q hq w' hw' hu
      obtain ⟨e, he, ha, -⟩ := h.pending q hq w' hw'
      have hu' : e.uid = uid.uuidString := ha.uid.trans hu
      exact hf (hu' ▸ (h.uid e he).1)
  | @uploading p w hp hc fileName hf imageData =>
    simp only [App.issue, App.take, State.board, Board.ofLog_append]
    refine h.advance hp (by rw [hc]; rfl) rfl (fun _ => rfl) (fun e hA => ?_)
      (fun _ => List.mem_cons_of_mem _) ?_
    · rw [Awaits, hc] at hA
      exact ⟨rfl, by simp [hA.2.1, InFlight.done], hA.2.2⟩
    · rintro e f ⟨⟩
      exact .inr ⟨hf, List.mem_cons_self, fileName.isUUID⟩
  | @lookingUp p w f d k hp hc ha =>
    simp only [App.issue, App.take, State.board, Board.ofLog_append]
    refine h.pass hp (by rw [hc]; rfl) rfl fun e hA => ?_
    rw [Awaits, hc] at hA
    exact ⟨hA.1, by simp [hA.2.1, InFlight.done, ha], hA.2.2⟩
  | @writing p w f u k hp hc ha now =>
    simp only [App.issue, App.take, State.board, Board.ofLog_append]
    refine h.pass hp (by rw [hc]; rfl) rfl fun e hA => ?_
    rw [Awaits, hc] at hA
    exact ⟨hA.1, hA.2.1, by simp [hA.2.2, InFlight.done]⟩
  | served hp ha hr outcome => exact h.served hp ha hr outcome
  | issued call hA _ => exact h.issued hA.word (fun _ h => h)
  | commented screen w autoID comment hw hf => exact h.issued rfl fun _ => List.mem_cons_of_mem _

/-- What is known of an add is not changed any more. -/
theorem later {s s' : State} (h : Pipeline s.used s.board s.app.net) (hm : Move s s') :
    s.board.Later s'.board := by
  -- a stage of the add that awaits `p`
  have stage : ∀ {p : InFlight} {w : Word} {g : Entry → Entry}, p ∈ s.app.net → p.call.word = some w →
      (∀ e, Awaits e p → Entry.Later e (g e)) →
      s.board.Later (s.board.update w.uid g) := fun hp hw hg =>
    Board.later_update fun e he hu => hg e (h.awaits hp hw he hu).2
  cases hm.board with
  | same hb => exact hb ▸ .refl _
  | saved sheet title content uid hf hb => exact hb ▸ Board.later_append _ _
  | named hp hc fileName hf hb =>
    rw [hb]
    refine stage hp (by rw [hc]; rfl) fun e hA => ?_
    rw [Awaits, hc] at hA
    constructor <;> simp [hA]
  | @served p r hp ha hr outcome hs =>
    obtain ⟨t, call, answer⟩ := p
    cases ha
    rw [hs, State.board_serve]
    cases outcome with
    | failure => cases call <;> exact .refl _
    | success url =>
      cases call with
      | putData w f d =>
        refine stage hp rfl fun e hA => ?_
        have hn : e.url = none := by simpa [InFlight.done] using hA.2.1
        constructor <;> simp [hn]
      | setData w writtenTime u f =>
        refine stage hp rfl fun e hA => ?_
        have hn : e.writtenTime = none := by simpa [InFlight.done] using hA.2.2
        constructor <;> simp [hn]
      | deleteDocument screen uid => exact Board.later_update fun e _ _ => by constructor <;> simp
      | deleteObject screen f =>
        refine Board.later_map fun e _ => ?_
        split
        · constructor <;> simp
        · exact .refl e
      | _ => exact .refl _

/-- The words written stay. -/
theorem wrote {s s' : State} (h : Pipeline s.used s.board s.app.net) (hm : Move s s') {w : Word}
    (hw : s.board.Wrote w) : s'.board.Wrote w := by
  obtain ⟨e, he, ht, rfl⟩ := hw
  obtain ⟨e', he', hl⟩ := h.later hm e he
  have hu := h.uploaded e he ht
  obtain ⟨t, ht⟩ := Option.isSome_iff_exists.mp ht
  obtain ⟨u, hu'⟩ := Option.isSome_iff_exists.mp hu
  obtain ⟨f, hf⟩ := Option.isSome_iff_exists.mp (h.named e he hu)
  refine ⟨e', he', by simp [hl.writtenTime t ht], ?_⟩
  simp [Entry.word, hl.title, hl.content, hl.uid, hl.url u hu', hl.fileName f hf, hu', hf]

end Pipeline

theorem Moved.pipeline {s : State} (h : Moved s) : Pipeline s.used s.board s.app.net := by
  refine h.inv (I := fun s => Pipeline s.used s.board s.app.net) (fun s hs => ?_)
    fun _ _ _ hp hm => hp.move hm
  rw [State.board, hs.launch]
  exact .empty s.used

end BlindBoard
