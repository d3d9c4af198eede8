import BlindBoard.Proof.Steps
import BlindBoard.Spec.Board
import Mathlib.Logic.Relation

/-!
# What a step does: moves

Every step of the system is a sequence of moves (`step_moves`), each of which
changes one thing: a request is sent, served or answered, an identifier is
generated, a screen changes, a list is assigned. An invariant that does not
depend on which screen is where follows from what each move keeps
(`Moved.inv`); the moves carry what is known where they are made (which
request is in flight, which word the screen shows).
-/

namespace BlindBoard

open Lib

/-- The word of an add's call. -/
def Call.word : Call → Option Word
  | .dataTask w | .putData w _ _ | .downloadURL w _ | .setData w _ _ _ => some w
  | _ => none

/-- A screen for the word `w`. -/
def App.Shows (a : App) (screen : Nat) (w : Word) : Prop := ∃ d, a.details screen = some d ∧ d.board = w

/-- The calls of a screen concern the word it shows; they belong to no add. -/
def App.Allows (a : App) : Call → Prop
  | .loadData => True
  | .deleteDocument screen uid | .reloadComment screen uid | .addDocument screen uid _ _ =>
    ∃ w, a.Shows screen w ∧ uid = w.uid
  | .deleteObject screen fileName => ∃ w, a.Shows screen w ∧ fileName = w.imageFileName
  | _ => False

theorem App.Allows.word {a : App} {call : Call} (h : a.Allows call) : call.word = none := by
  cases call <;> first | rfl | exact h.elim

/-- The document ID that a call brings with it. -/
def Call.autoID : Call → Option String
  | .addDocument _ _ autoID _ => some autoID
  | _ => none

/-- The closure of an answered call sends nothing for its add. -/
def InFlight.Ends (p : InFlight) : Prop :=
  match p.call, p.answer with
  | .dataTask _, _ => True
  | .putData .., some answer => answer.reply ≠ .done
  | .downloadURL .., some answer => ∀ imageUrl, answer.reply ≠ .url imageUrl
  | _, answer => answer.isSome = true

inductive Move : State → State → Prop
  /-- An identifier is generated. -/
  | fresh {s : State} (u : String) : Move s { s with used := u :: s.used }
  /-- A sheet gets a number. -/
  | number {s : State} : Move s { s with app := { s.app with next := s.app.next + 1 } }
  /-- Screens come and go; a comment sheet gets its word from its screen. -/
  | screens {s : State} (modal : Option Modal) (pushed : Option Nat) (hud : Option View)
      (mainQueue : List Nat)
      (crashed : Bool) (h : ∀ n d w, modal = some (.addComment n d w) →
        modal = s.app.modal ∨ s.app.Shows d w) :
      Move s { s with app := { s.app with modal, pushed, hud, mainQueue, crashed } }
  /-- The success callback of an add is noted. -/
  | closed {s : State} (w : Word) : Move s { s with app := s.app.record (.closed w s.app.modal) }
  /-- A deletion is confirmed. -/
  | deleted {s : State} (screen : Nat) (w : Word) (h : s.app.Shows screen w) :
      Move s { s with app := s.app.record (.deleted screen w) }
  /-- The table of a screen asks for its row count. -/
  | rows {s : State} (screen : Nat) (d : Detail) (h : s.app.details screen = some d) :
      Move s { s with app := { s.app with
        details := Function.update s.app.details screen (some d.reloadData) } }
  /-- The comments of a screen are assigned. -/
  | reloaded {s : State} {p : InFlight} {screen : Nat} {uid : String} {servedAt : Nat}
      {documents : List (Path × Dictionary)} {d : Detail} (hp : p ∈ s.app.net)
      (hc : p.call = .reloadComment screen uid)
      (ha : p.answer = some ⟨.documents documents, servedAt⟩) (hd : s.app.details screen = some d) :
      Move s { s with app := { s.app.take p.ticket with
        details := Function.update s.app.details screen
          (some { d with arr := documents.map fun d => Comment.ofDictionary d.2 })
        log :=
          s.app.log ++
            [.reloaded screen p.ticket servedAt (documents.map fun d => Comment.ofDictionary d.2)] } }
  /-- A row is tapped. -/
  | opened {s : State} (row : Nat) (shown w : Word) (hr : s.app.rows[row]? = some shown)
      (ha : s.app.arr[row]? = some w) :
      Move s { s with app := { s.app with
        details := Function.update s.app.details s.app.next (some ⟨w, [], 0⟩), next := s.app.next + 1
        log := s.app.log ++ [.opened row shown s.app.next] } }
  /-- The word list is assigned. -/
  | loaded {s : State} {p : InFlight} {servedAt : Nat} {documents : List (Path × Dictionary)}
      (hp : p ∈ s.app.net)
      (hc : p.call = .loadData) (ha : p.answer = some ⟨.documents documents, servedAt⟩) :
      Move s { s with app := (s.app.take p.ticket).boardLoaded p.ticket servedAt documents }
  /-- A call is answered, and its closure sends nothing. -/
  | dropped {s : State} {p : InFlight} (hp : p ∈ s.app.net) (he : p.Ends) :
      Move s { s with app := s.app.take p.ticket }
  /-- A Save tap is accepted. -/
  | saved {s : State} (sheet : Nat) (title content : String) (uid : UUID)
      (url : Bool) (h : uid.uuidString ∉ s.used) :
      Move s { s with
        used := uid.uuidString :: s.used
        app := (s.app.record (.saved sheet ⟨title, content, uid.uuidString, "", ""⟩)).addContent
          ⟨title, content, uid.uuidString, "", ""⟩ url }
  /-- The image search is over, and the upload starts. -/
  | uploading {s : State} {p : InFlight} {w : Word} (hp : p ∈ s.app.net)
      (hc : p.call = .dataTask w) (fileName : UUID)
      (h : fileName.uuidString ∉ s.used) (imageData : Data) :
      Move s { s with
        used := fileName.uuidString :: s.used
        app := (s.app.take p.ticket).issue (.putData w fileName.uuidString imageData) }
  /-- The upload is over, and the download URL is looked up. -/
  | lookingUp {s : State} {p : InFlight} {w : Word} {fileName : String} {imageData : Data} {servedAt : Nat}
      (hp : p ∈ s.app.net) (hc : p.call = .putData w fileName imageData)
      (ha : p.answer = some ⟨.done, servedAt⟩) :
      Move s { s with app := (s.app.take p.ticket).issue (.downloadURL w fileName) }
  /-- The download URL is known, and the word is written. -/
  | writing {s : State} {p : InFlight} {w : Word} {fileName imageUrl : String} {servedAt : Nat}
      (hp : p ∈ s.app.net)
      (hc : p.call = .downloadURL w fileName) (ha : p.answer = some ⟨.url imageUrl, servedAt⟩)
      (now : String) :
      Move s { s with app := (s.app.take p.ticket).issue (.setData w now imageUrl fileName) }
  /-- A service serves a request. -/
  | served {s : State} {p : InFlight} {r : Request} (hp : p ∈ s.app.net) (ha : p.answer = none)
      (hr : p.call.request s.app.uid = some r) (outcome : Outcome) : Move s (s.serve p r outcome)
  /-- A screen or the board sends a request. -/
  | issued {s : State} (call : Call) (h : s.app.Allows call) (hn : call.autoID = none) :
    Move s { s with app := s.app.issue call }
  /-- A comment is added. -/
  | commented {s : State} (screen : Nat) (w : Word) (autoID : String) (comment : Comment)
      (h : s.app.Shows screen w)
      (hf : autoID ∉ s.used) :
      Move s { s with
        used := autoID :: s.used, app := s.app.issue (.addDocument screen w.uid autoID comment) }

/-- A sequence of moves. -/
abbrev Moves : State → State → Prop := Relation.ReflTransGen Move

namespace Moves

theorem one {s s' : State} (h : Move s s') : Moves s s' := .single h

/-- Only screens change. -/
theorem ui {s : State} (modal : Option Modal) (pushed : Option Nat) (hud : Option View) (mainQueue : List Nat)
    (h : ∀ n d w, modal = some (.addComment n d w) → modal = s.app.modal ∨ s.app.Shows d w) :
    Moves s { s with app := { s.app with modal, pushed, hud, mainQueue } } :=
  one (.screens modal pushed hud mainQueue s.app.crashed h)

theorem dismissed {s : State} (pushed : Option Nat) (hud : Option View) :
    Moves s { s with app := { s.app with modal := none, pushed, hud } } :=
  ui none pushed hud s.app.mainQueue (by simp)

theorem loader {s : State} (hud : Option View) : Moves s { s with app := { s.app with hud } } :=
  ui s.app.modal s.app.pushed hud s.app.mainQueue fun _ _ _ _ => .inl rfl

theorem pushed {s : State} (pushed : Option Nat) : Moves s { s with app := { s.app with pushed } } :=
  ui s.app.modal pushed s.app.hud s.app.mainQueue fun _ _ _ _ => .inl rfl

theorem queued {s : State} (mainQueue : List Nat) : Moves s { s with app := { s.app with mainQueue } } :=
  ui s.app.modal s.app.pushed s.app.hud mainQueue fun _ _ _ _ => .inl rfl

theorem crash {s : State} : Moves s { s with app := { s.app with crashed := true } } :=
  one (.screens s.app.modal s.app.pushed s.app.hud s.app.mainQueue true fun _ _ _ _ => .inl rfl)

end Moves

theorem App.showLoader_hud (a : App) (v : View) (b : Bool) : ∃ hud, a.showLoader v b = { a with hud } := by
  cases b
  · exact ⟨none, rfl⟩
  · by_cases h : a.loader.isSome
    · exact ⟨a.hud, by simp [showLoader, h]⟩
    · exact ⟨some v, by simp [showLoader, h]⟩

theorem App.objectDeleted_eq (a : App) (screen : Nat) :
    a.objectDeleted screen =
      { a with hud := none, pushed := if a.pushed = some screen then none else a.pushed } := by
  simp only [objectDeleted, showLoader]
  by_cases h : a.pushed = some screen <;> simp [h]

theorem fetchBoard_moves (s : State) : Moves s { s with app := s.app.fetchBoard } :=
  .one (.issued .loadData trivial rfl)

theorem saveBoard_moves (s : State) (sheet : Nat) (title content : Option String) (uid : UUID) (url : Bool)
    (h : uid.uuidString ∉ s.used) :
    Moves s { s with
      used := uid.uuidString :: s.used, app := s.app.saveBoard sheet title content uid url } := by
  unfold App.saveBoard
  split
  · exact .one (.fresh _)
  · obtain ⟨hud, hh⟩ := s.app.showLoader_hud (.addWord sheet) true
    rw [hh]
    exact (Moves.loader hud).tail (.saved sheet _ _ uid url h)

theorem searched_moves {s : State} {p : InFlight} {w : Word} (hp : p ∈ s.app.net) (hc : p.call = .dataTask w)
    (web : Web) (fileName : UUID) (h : fileName.uuidString ∉ s.used) :
    Moves s { s with
      used := fileName.uuidString :: s.used, app := (s.app.take p.ticket).imagesFetched w web fileName } := by
  have silent : Moves s { s with used := fileName.uuidString :: s.used, app := s.app.take p.ticket } :=
    (Moves.one (.fresh fileName.uuidString)).tail
      (.dropped (s := { s with used := _ }) hp (by simp [InFlight.Ends, hc]))
  unfold App.imagesFetched
  split
  · split
    · exact silent.trans (Moves.loader none)
    · unfold App.imageUpload
      split
      · exact .one (.uploading hp hc fileName h _)
      · exact silent
  · exact silent

theorem addCompleted_moves {s : State} {p : InFlight} {w : Word} {fileName imageUrl : String} {k : Nat}
    (hp : p ∈ s.app.net) (hc : p.call = .downloadURL w fileName) (ha : p.answer = some ⟨.url imageUrl, k⟩)
    (now : String) :
    Moves s { s with app := (s.app.take p.ticket).addCompleted w imageUrl fileName now } := by
  refine (Moves.one (.writing hp hc ha now)).trans (.head (.closed w) ?_)
  refine (Moves.dismissed s.app.pushed s.app.hud).trans ((fetchBoard_moves _).trans ?_)
  exact Moves.loader none

theorem commentsReloaded_moves {s : State} {p : InFlight} {screen : Nat} {uid : String} {k : Nat}
    {documents : List (Path × Dictionary)} (hp : p ∈ s.app.net) (hc : p.call = .reloadComment screen uid)
    (ha : p.answer = some ⟨.documents documents, k⟩) :
    Moves s { s with app := (s.app.take p.ticket).commentsReloaded screen p.ticket k documents } := by
  have dropped : Moves s { s with app := s.app.take p.ticket } :=
    .one (.dropped hp (by simp [InFlight.Ends, hc, ha]))
  unfold App.commentsReloaded
  split
  next d hd =>
    split
    · exact (Moves.one (.reloaded hp hc ha hd)).trans (Moves.queued _)
    · exact dropped
  · exact dropped

theorem fetchComment_moves (s : State) (screen : Nat) :
    Moves s { s with app := s.app.fetchComment screen } := by
  unfold App.fetchComment
  split
  next d hd => exact .one (.issued _ ⟨_, ⟨d, hd, rfl⟩, rfl⟩ rfl)
  · exact .refl

theorem answered_moves {s : State} {p : InFlight} (hp : p ∈ s.app.net)
    {answer : Answer} (ha : p.answer = some answer)
    (now : String) :
    Moves s { s with app := (s.app.take p.ticket).answered p.ticket p.call answer now } := by
  obtain ⟨reply, k⟩ := answer
  have dropped : p.Ends → Moves s { s with app := s.app.take p.ticket } := fun he => .one (.dropped hp he)
  unfold App.answered
  split
  next w f d hc hr => cases hr; exact .one (.lookingUp hp hc ha)
  next w f u hc hr => cases hr; exact addCompleted_moves hp hc ha now
  next documents hc hr => cases hr; exact .one (.loaded hp hc ha)
  next screen f hc hr =>
    rw [App.objectDeleted_eq]
    exact (dropped (by simp [InFlight.Ends, hc, ha])).trans
      (Moves.ui s.app.modal _ none s.app.mainQueue fun _ _ _ _ => .inl rfl)
  next screen uid documents hc hr => cases hr; exact commentsReloaded_moves hp hc ha
  next screen uid autoID comment hc =>
    exact (dropped (by simp [InFlight.Ends, hc, ha])).trans (fetchComment_moves _ screen)
  next hput hurl _ _ _ =>
    refine dropped ?_
    unfold InFlight.Ends
    rw [ha]
    split
    · trivial
    next w f d _ hc h => cases h; exact hput w f d hc
    next w f _ hc h => cases h; exact fun u => hurl w f u hc
    · rfl

theorem didSelectRow_moves {s : State} {row : Nat} {shown : Word} (hr : s.app.rows[row]? = some shown) :
    Moves s { s with app := s.app.didSelectRow row shown } := by
  unfold App.didSelectRow
  split
  next w ha =>
    refine .head (.opened row shown w hr ha) ((Moves.pushed (some s.app.next)).trans ?_)
    exact Moves.one (.issued (.reloadComment s.app.next w.uid)
      ⟨w, ⟨⟨w, [], 0⟩, Function.update_self .., rfl⟩, rfl⟩ rfl)
  · exact Moves.crash

theorem deleteConfirmed_moves (s : State) (screen : Nat) :
    Moves s { s with app := s.app.deleteConfirmed screen } := by
  unfold App.deleteConfirmed
  split
  next d hd =>
    obtain ⟨hud, hh⟩ := s.app.showLoader_hud (.detail screen) true
    simp only [hh]
    refine (Moves.loader hud).trans (.head (.deleted screen d.board ⟨d, hd, rfl⟩) ?_)
    refine .head (.issued (.deleteDocument screen d.board.uid) ⟨_, ⟨d, hd, rfl⟩, rfl⟩ rfl) ?_
    refine .head (.issued (.deleteObject screen d.board.imageFileName) ⟨_, ⟨d, hd, rfl⟩, rfl⟩ rfl) ?_
    exact Moves.dismissed s.app.pushed hud
  · exact .refl

theorem boardRow_moves (s : State) (row : Nat) : Moves s { s with app := s.app.cellForRowAt row } := by
  unfold App.cellForRowAt
  split
  · exact .refl
  · exact Moves.crash

theorem commentRow_moves (s : State) (screen row : Nat) (select : Bool) :
    Moves s { s with app := s.app.commentRow screen row select } := by
  unfold App.commentRow
  repeat' split
  all_goals first | exact .refl | exact Moves.crash

theorem reloadTable_moves {s : State} (screen : Nat) (mainQueue : List Nat) :
    Moves s { s with app := { s.app.reloadTable screen with mainQueue } } := by
  unfold App.reloadTable
  cases hd : s.app.details screen with
  | none =>
    have : Function.update s.app.details screen none = s.app.details := by rw [← hd, Function.update_eq_self]
    simp only [Option.map_none, this]
    exact Moves.ui s.app.modal s.app.pushed s.app.hud mainQueue fun _ _ _ _ => .inl rfl
  | some d =>
    exact (Moves.one (.rows screen d hd)).trans
      (Moves.ui s.app.modal s.app.pushed s.app.hud mainQueue fun _ _ _ _ => .inl rfl)

theorem addComment_moves (s : State) (screen : Nat) : Moves s { s with app := s.app.addComment screen } := by
  unfold App.addComment
  split
  next d hd =>
    refine .head .number ?_
    refine Moves.ui (some (.addComment s.app.next screen d.board)) s.app.pushed s.app.hud s.app.mainQueue ?_
    rintro _ _ _ ⟨⟩
    exact .inr ⟨d, hd, rfl⟩
  · exact .refl

/-! ## Calls in flight after a move -/

theorem App.mem_take {a : App} {t : Nat} {p : InFlight} (hp : p ∈ (a.take t).net) : p ∈ a.net :=
  (List.mem_filter.mp hp).1

theorem App.mem_issue {a : App} {call : Call} {p : InFlight} (hp : p ∈ (a.issue call).net) :
    p ∈ a.net ∨ p = ⟨a.next, call, none⟩ :=
  (List.mem_append.mp hp).imp id List.mem_singleton.mp

/-- Why a move from `s` to `s'` sends a call: an add starts or passes to its next stage, or
the call is one of the board or of a screen. -/
inductive Sends (s s' : State) : Call → Prop
  | dataTask (w : Word) (h : w.uid ∉ s.used) : Sends s s' (.dataTask w)
  | putData {q : InFlight} {w : Word} (hq : q ∈ s.app.net) (hc : q.call = .dataTask w) (fileName : String)
      (imageData : Data) : Sends s s' (.putData w fileName imageData)
  | downloadURL {q : InFlight} {w : Word} {fileName : String} {imageData : Data} {servedAt : Nat}
      (hq : q ∈ s.app.net)
      (hc : q.call = .putData w fileName imageData) (ha : q.answer = some ⟨.done, servedAt⟩) :
      Sends s s' (.downloadURL w fileName)
  | setData {q : InFlight} {w : Word} {fileName imageUrl : String} {servedAt : Nat} (hq : q ∈ s.app.net)
      (hc : q.call = .downloadURL w fileName) (ha : q.answer = some ⟨.url imageUrl, servedAt⟩)
      (now : String) :
      Sends s s' (.setData w now imageUrl fileName)
  | allowed (call : Call) (h : s.app.Allows call) (hn : call.autoID = none) : Sends s s' call
  | addDocument (screen : Nat) (w : Word) (autoID : String) (comment : Comment) (h : s.app.Shows screen w)
      (hf : autoID ∉ s.used)
      (hs : s' = { s with
        used := autoID :: s.used, app := s.app.issue (.addDocument screen w.uid autoID comment) }) :
      Sends s s' (.addDocument screen w.uid autoID comment)

/-- A call in flight after a move was in flight, has just been served, or is sent by the move. -/
theorem Move.mem_net {s s' : State} (h : Move s s') {p : InFlight} (hp : p ∈ s'.app.net) :
    p ∈ s.app.net ∨
    (∃ q ∈ s.app.net, ∃ r outcome, q.answer = none ∧ q.call.request s.app.uid = some r ∧
      s' = s.serve q r outcome ∧
      p = ⟨q.ticket, q.call, some ⟨(s.cloud.serve r outcome).2, s.app.log.length⟩⟩) ∨
    p = ⟨s.app.next, p.call, none⟩ ∧ s'.app.next = s.app.next + 1 ∧
    (∀ p' ∈ s'.app.net, p' ∈ s.app.net ∨ p' = p) ∧
      Sends s s' p.call := by
  have sent {a : App} {call : Call} (he : s'.app = a.issue call) (hn : a.next = s.app.next)
      (hsub : ∀ q ∈ a.net, q ∈ s.app.net) (hS : Sends s s' call) : p ∈ s.app.net ∨
        p = ⟨s.app.next, p.call, none⟩ ∧ s'.app.next = s.app.next + 1 ∧
          (∀ p' ∈ s'.app.net, p' ∈ s.app.net ∨ p' = p) ∧ Sends s s' p.call := by
    rw [he] at hp
    rcases App.mem_issue hp with hp | rfl
    · exact .inl (hsub p hp)
    · refine .inr ⟨by rw [hn], by rw [he, ← hn]; rfl, fun p' hp' => ?_, hS⟩
      exact (App.mem_issue (he ▸ hp')).imp (hsub p') id
  cases h with
  | dropped | loaded | reloaded => exact .inl (App.mem_take hp)
  | saved sheet title content uid url h =>
    cases url
    · exact .inl hp
    · exact (sent rfl rfl (fun _ hq => hq) (.dataTask _ h)).imp id .inr
  | uploading hq hc fileName hf imageData =>
    exact (sent rfl rfl (fun _ => App.mem_take) (.putData hq hc _ _)).imp id .inr
  | lookingUp hq hc ha => exact (sent rfl rfl (fun _ => App.mem_take) (.downloadURL hq hc ha)).imp id .inr
  | writing hq hc ha now => exact (sent rfl rfl (fun _ => App.mem_take) (.setData hq hc ha now)).imp id .inr
  | @served q r hq ha hr outcome =>
    rcases List.mem_append.mp hp with hp | hp
    · exact .inl (App.mem_take hp)
    · exact .inr (.inl ⟨q, hq, r, outcome, ha, hr, rfl, List.mem_singleton.mp hp⟩)
  | issued call hA hn => exact (sent rfl rfl (fun _ hq => hq) (.allowed call hA hn)).imp id .inr
  | commented screen w autoID comment h hf =>
    exact (sent rfl rfl (fun _ hq => hq) (.addDocument screen w autoID comment h hf rfl)).imp id .inr
  | _ => exact .inl hp

/-- A call that is sent and belongs to no add is one that its screen allows. -/
theorem Sends.allows {s s' : State} {call : Call} (h : Sends s s' call) (hw : call.word = none) :
    s.app.Allows call := by
  cases h with
  | allowed _ h => exact h
  | addDocument screen w autoID comment h => exact ⟨w, h, rfl⟩
  | _ => cases hw

/-! ## Screens -/

/-- A screen has a number below the next one, and a comment sheet and the calls
of a screen have the word of it. -/
structure Screens (s : State) : Prop where
  below : ∀ n d, s.app.details n = some d → n < s.app.next
  sheet : ∀ n screen w, s.app.modal = some (.addComment n screen w) → s.app.Shows screen w
  calls : ∀ p ∈ s.app.net, p.call.word = none → s.app.Allows p.call

/-- A screen keeps its word. -/
theorem Move.shows {s s' : State} (h : Move s s') (hs : Screens s) {screen : Nat} {w : Word}
    (hw : s.app.Shows screen w) : s'.app.Shows screen w := by
  obtain ⟨d, hd, rfl⟩ := hw
  -- a screen is updated and keeps its word
  have update : ∀ (n : Nat) (d₀ d' : Detail), s.app.details n = some d₀ → d'.board = d₀.board →
      ∃ d₁, Function.update s.app.details n (some d') screen = some d₁ ∧ d₁.board = d.board := by
    intro n d₀ d' h₀ hb
    rcases eq_or_ne screen n with rfl | hne
    · cases h₀.symm.trans hd
      exact ⟨d', Function.update_self .., hb⟩
    · exact ⟨d, (Function.update_of_ne hne ..).trans hd, rfl⟩
  cases h with
  | rows n d₀ h₀ => exact update n d₀ _ h₀ rfl
  | reloaded hp hc ha h₀ => exact update _ _ _ h₀ rfl
  | opened row shown w hr ha =>
    exact ⟨d, (Function.update_of_ne (hs.below _ _ hd).ne ..).trans hd, rfl⟩
  | saved sheet title content uid url h => cases url <;> exact ⟨d, hd, rfl⟩
  | _ => exact ⟨d, hd, rfl⟩

/-- Numbers are given out in order. -/
theorem Move.next {s s' : State} (h : Move s s') : s.app.next ≤ s'.app.next := by
  cases h with
  | saved sheet title content uid url h =>
    cases url
    · exact le_rfl
    · exact Nat.le_succ _
  | number | opened | uploading | lookingUp | writing | issued | commented => exact Nat.le_succ _
  | _ => exact le_rfl

/-- A screen is one that was there, with new comments if they were answered, or
that of the row tapped. -/
theorem Move.details {s s' : State} (h : Move s s') {n : Nat} {d' : Detail}
    (hd : s'.app.details n = some d') :
    (∃ d, s.app.details n = some d ∧ d'.board = d.board ∧ (d'.arr = d.arr ∨
      ∃ p ∈ s.app.net, ∃ uid k documents, p.call = .reloadComment n uid ∧
      p.answer = some ⟨.documents documents, k⟩ ∧
        d'.arr = (documents.map fun d => Comment.ofDictionary d.2) ∧
        s'.app.log = s.app.log ++ [.reloaded n p.ticket k d'.arr])) ∨
    n = s.app.next ∧ n < s'.app.next ∧ d'.arr = [] ∧ d'.board ∈ s.app.arr := by
  have same : s.app.details n = some d' → ∃ d, s.app.details n = some d ∧
    d'.board = d.board ∧ (d'.arr = d.arr ∨
      ∃ p ∈ s.app.net, ∃ uid k documents, p.call = .reloadComment n uid ∧
        p.answer = some ⟨.documents documents, k⟩ ∧
        d'.arr = (documents.map fun d => Comment.ofDictionary d.2) ∧
        s'.app.log = s.app.log ++ [.reloaded n p.ticket k d'.arr]) := fun h => ⟨d', h, rfl, .inl rfl⟩
  cases h with
  | rows screen d₀ h₀ =>
    rcases eq_or_ne n screen with rfl | hne
    · obtain rfl : d₀.reloadData = d' := by simpa using hd
      exact .inl ⟨d₀, h₀, rfl, .inl rfl⟩
    · exact .inl (same ((Function.update_of_ne hne ..).symm.trans hd))
  | @reloaded p screen uid k documents d₀ hp hc ha h₀ =>
    rcases eq_or_ne n screen with rfl | hne
    · obtain rfl : { d₀ with arr := documents.map fun d => Comment.ofDictionary d.2 } = d' := by
        simpa using hd
      exact .inl ⟨d₀, h₀, rfl, .inr ⟨p, hp, uid, k, documents, hc, ha, rfl, rfl⟩⟩
    · exact .inl (same ((Function.update_of_ne hne ..).symm.trans hd))
  | opened row shown w hr ha =>
    rcases eq_or_ne n s.app.next with rfl | hne
    · obtain rfl : (⟨w, [], 0⟩ : Detail) = d' := by simpa using hd
      exact .inr ⟨rfl, Nat.lt_succ_self _, rfl, List.mem_of_getElem? ha⟩
    · exact .inl (same ((Function.update_of_ne hne ..).symm.trans hd))
  | saved sheet title content uid url h => cases url <;> exact .inl (same hd)
  | _ => exact .inl (same hd)

theorem Move.allows {s s' : State} (h : Move s s') (hs : Screens s) {call : Call} (hc : s.app.Allows call) :
    s'.app.Allows call := by
  cases call with
  | loadData => trivial
  | deleteDocument | reloadComment | addDocument | deleteObject =>
    obtain ⟨w, hw, hu⟩ := hc
    exact ⟨w, h.shows hs hw, hu⟩
  | _ => exact hc.elim

/-- The calls in flight after a move: those that were, and one that the move sends or serves. -/
theorem Move.net {s s' : State} (h : Move s s') (hs : Screens s) {p : InFlight} (hp : p ∈ s'.app.net)
    (hw : p.call.word = none) : (∃ q ∈ s.app.net, q.call = p.call) ∨ s'.app.Allows p.call := by
  rcases h.mem_net hp with hp | ⟨q, hq, -, -, -, -, -, rfl⟩ | ⟨-, -, -, hS⟩
  · exact .inl ⟨p, hp, rfl⟩
  · exact .inl ⟨q, hq, rfl⟩
  · exact .inr (h.allows hs (hS.allows hw))

theorem Screens.start {s : State} (h : Start s) : Screens s := by
  constructor <;> rw [h.launch] <;> simp [App.launch]

theorem Screens.move {s s' : State} (hs : Screens s) (h : Move s s') : Screens s' := by
  constructor
  case below =>
    intro n d hd
    rcases h.details hd with ⟨d₀, h₀, -⟩ | ⟨-, hn, -⟩
    · exact (hs.below n d₀ h₀).trans_le h.next
    · exact hn
  case sheet =>
    intro n screen w hm
    have shows := fun h' => h.shows hs (hs.sheet n screen w h')
    cases h with
    | screens modal pushed hud mainQueue crashed h =>
      rcases h n screen w hm with e | e
      · exact hs.sheet n screen w (e.symm.trans hm)
      · exact e
    | saved sheet title content uid url h => cases url <;> exact shows hm
    | _ => exact shows hm
  case calls =>
    intro p hp hw
    rcases h.net hs hp hw with ⟨q, hq, e⟩ | hA
    · exact e ▸ h.allows hs (hs.calls q hq (e ▸ hw))
    · exact hA

/-! ## Calls in flight -/

/-- The calls in flight have different numbers, below the next one. -/
structure Tickets (s : State) : Prop where
  eq : ∀ p ∈ s.app.net, ∀ q ∈ s.app.net, p.ticket = q.ticket → p = q
  below : ∀ p ∈ s.app.net, p.ticket < s.app.next

theorem Tickets.start {s : State} (h : Start s) : Tickets s := by
  constructor <;> rw [h.launch] <;> simp [App.launch]

/-- A call in flight after a move was in flight, is sent, or has just been served. -/
theorem Move.inFlight {s s' : State} (h : Move s s') {p : InFlight} (hp : p ∈ s'.app.net) :
    p ∈ s.app.net ∨
    (p.ticket = s.app.next ∧ p.ticket < s'.app.next ∧ p.answer = none ∧
      ∀ p' ∈ s'.app.net, p' ∈ s.app.net ∨ p' = p) ∨
    ∃ q ∈ s.app.net, q.ticket = p.ticket ∧ q.call = p.call ∧ q.answer = none ∧ p.answer ≠ none ∧
      ∀ p' ∈ s'.app.net, p'.ticket = p.ticket → p' = p := by
  rcases h.mem_net hp with hp | ⟨q, hq, r, outcome, hn, -, rfl, rfl⟩ | ⟨he, hn, hu, -⟩
  · exact .inl hp
  · refine .inr (.inr ⟨q, hq, rfl, rfl, hn, by simp, fun p' hp' ht => ?_⟩)
    rcases List.mem_append.mp hp' with hp' | hp'
    · simp [App.take, ht] at hp'
    · exact List.mem_singleton.mp hp'
  · have ht : p.ticket = s.app.next := congrArg InFlight.ticket he
    exact .inr (.inl ⟨ht, by omega, congrArg InFlight.answer he, hu⟩)

theorem Tickets.move {s s' : State} (ht : Tickets s) (h : Move s s') : Tickets s' where
  eq p hp q hq he := by
    rcases h.inFlight hp with hp' | ⟨hp', -, -, hu⟩ | ⟨p₀, -, -, -, -, -, hp'⟩
    · rcases h.inFlight hq with hq' | ⟨hq', -⟩ | ⟨q₀, -, -, -, -, -, hq'⟩
      · exact ht.eq p hp' q hq' he
      · exact absurd (he.trans hq') (ht.below p hp').ne
      · exact hq' p hp he
    · rcases hu q hq with hq' | rfl
      · exact absurd (he.symm.trans hp') (ht.below q hq').ne
      · rfl
    · exact (hp' q hq he.symm).symm
  below p hp := by
    rcases h.inFlight hp with hp | ⟨-, hp, -⟩ | ⟨q, hq, ht', -⟩
    · exact (ht.below p hp).trans_le h.next
    · exact hp
    · exact ht' ▸ (ht.below q hq).trans_le h.next

/-- A call of an add stays in flight or is followed by the next one, or its closure ends. -/
theorem Move.follows {s s' : State} (h : Move s s') (ht : Tickets s) {p : InFlight}
    (hp : p ∈ s.app.net) {w : Word}
    (hw : p.call.word = some w) : (∃ p' ∈ s'.app.net, p'.call.word = some w) ∨ p.Ends := by
  have kept : p ∈ s'.app.net → (∃ p' ∈ s'.app.net, p'.call.word = some w) ∨ p.Ends :=
    fun hp => .inl ⟨p, hp, hw⟩
  -- another call is answered, or `p` itself
  have taken : ∀ {q : InFlight}, q ∈ s.app.net → p ∈ (s.app.take q.ticket).net ∨ p = q := by
    intro q hq
    by_cases he : p.ticket = q.ticket
    · exact .inr (ht.eq p hp q hq he)
    · exact .inl (List.mem_filter.mpr ⟨hp, by simpa using he⟩)
  cases h with
  | dropped hq he =>
    rcases taken hq with hp | rfl
    · exact kept hp
    · exact .inr he
  | loaded hq hc ha | reloaded hq hc ha hd =>
    rcases taken hq with hp | rfl
    · exact kept hp
    · rw [hc] at hw
      cases hw
  | saved sheet title content uid url h =>
    cases url
    · exact kept hp
    · exact kept (List.mem_append_left _ hp)
  | uploading hq hc | lookingUp hq hc | writing hq hc =>
    rcases taken hq with hp | rfl
    · exact kept (List.mem_append_left _ hp)
    · rw [hc] at hw
      cases hw
      exact .inl ⟨_, List.mem_append_right _ List.mem_cons_self, rfl⟩
  | @served q r hq hn hr outcome =>
    rcases taken hq with hp | rfl
    · exact kept (List.mem_append_left _ hp)
    · exact .inl ⟨_, List.mem_append_right _ List.mem_cons_self, hw⟩
  | issued | commented => exact kept (List.mem_append_left _ hp)
  | _ => exact kept hp

theorem act_moves {s s' : State} {a : Action} (hw : Screens s) (h : act s a = some s') : Moves s s' := by
  cases act_iff.mp h with
  | viewDidLoad | viewWillAppear | updateData => exact fetchBoard_moves s
  | writing =>
    exact .head .number
      (Moves.ui (some (.addWord s.app.next)) s.app.pushed s.app.hud s.app.mainQueue (by simp))
  | saveBoard title content uid url hm hf => exact saveBoard_moves s _ title content uid url hf
  | swipeDown | cancelDelete => exact Moves.dismissed s.app.pushed s.app.hud
  | boardRow => exact boardRow_moves s _
  | didSelectRow hp hm hr => exact didSelectRow_moves hr
  | back => exact Moves.pushed none
  | deleteWord => exact Moves.ui (some (.deleteAlert _)) s.app.pushed s.app.hud s.app.mainQueue (by simp)
  | confirmDelete => exact deleteConfirmed_moves s _
  | addComment => exact addComment_moves s _
  | saveComment text now autoID hm hf =>
    exact .head (.commented _ _ autoID ⟨text.getD "", now⟩ (hw.sheet _ _ _ hm) hf)
      (Moves.dismissed s.app.pushed s.app.hud)
  | commentRow select => exact commentRow_moves s _ _ select
  | reloadTable => exact reloadTable_moves _ s.app.mainQueue
  | mainQueue => exact reloadTable_moves _ _
  | serve outcome hf ha hr => exact .one (.served (App.find_mem hf).1 ha hr outcome)
  | searched web fileName hf hc hu => exact searched_moves (App.find_mem hf).1 hc web fileName hu
  | answer now hf ha => exact answered_moves (App.find_mem hf).1 ha now

theorem step_moves {s s' : State} {a : Action} (hw : Screens s) (h : step s a = some s') : Moves s s' :=
  act_moves hw (act_of_step h)

/-! ## What a move leaves alone -/

theorem Move.uid {s s' : State} (h : Move s s') : s'.app.uid = s.app.uid := by
  cases h with
  | saved sheet title content uid url => cases url <;> rfl
  | _ => rfl

/-- The log only grows. -/
theorem Move.log {s s' : State} (h : Move s s') : ∃ events, s'.app.log = s.app.log ++ events := by
  cases h with
  | saved sheet title content uid url =>
    cases url
    · exact ⟨_, rfl⟩
    · exact ⟨_, List.append_assoc ..⟩
  | fresh | number | screens | rows | dropped => exact ⟨[], (List.append_nil _).symm⟩
  | _ => exact ⟨_, rfl⟩

/-- An answer is one that was there, or the one that a service gives. -/
theorem Move.answered {s s' : State} (h : Move s s') {p : InFlight} (hp : p ∈ s'.app.net)
    {reply : Reply} {k : Nat}
    (ha : p.answer = some ⟨reply, k⟩) : p ∈ s.app.net ∨ ∃ r outcome, ⟨p.ticket, p.call, none⟩ ∈ s.app.net ∧
      p.call.request s.app.uid = some r ∧ reply = (s.cloud.serve r outcome).2 ∧ k = s.app.log.length ∧
      s'.app.log = s.app.log ++ [.served p.ticket p.call outcome] := by
  rcases h.mem_net hp with hp | ⟨⟨t, call, answer⟩, hq, r, outcome, hn, hr, rfl, rfl⟩ | ⟨he, -⟩
  · exact .inl hp
  · cases hn
    cases ha
    exact .inr ⟨r, outcome, hq, hr, rfl, rfl, rfl⟩
  · rw [he] at ha
    cases ha

/-- A move that changes the cloud serves a request. -/
theorem Move.cloud {s s' : State} (h : Move s s') : s'.cloud = s.cloud ∨ ∃ p ∈ s.app.net, ∃ r outcome,
    p.answer = none ∧ p.call.request s.app.uid = some r ∧ s' = s.serve p r outcome := by
  cases h with
  | served hp ha hr outcome => exact .inr ⟨_, hp, _, outcome, ha, hr, rfl⟩
  | _ => exact .inl rfl

/-- A call that brings a document ID with it is one that was there, or is sent with a fresh one. -/
theorem Move.autoID {s s' : State} (h : Move s s') {p : InFlight} (hp : p ∈ s'.app.net) {c : String}
    (hc : p.call.autoID = some c) :
    (∃ q ∈ s.app.net, q.ticket = p.ticket ∧ q.call = p.call ∧ (p.answer = none → q = p)) ∨
      p.ticket = s.app.next ∧ c ∉ s.used ∧
      s' = { s with used := c :: s.used, app := s.app.issue p.call } := by
  rcases h.mem_net hp with hp | ⟨q, hq, r, outcome, -, -, -, rfl⟩ | ⟨he, -, -, hS⟩
  · exact .inl ⟨p, hp, rfl, rfl, fun _ => rfl⟩
  · exact .inl ⟨q, hq, rfl, rfl, by simp⟩
  · have ht : p.ticket = s.app.next := congrArg InFlight.ticket he
    generalize p.call = call at hc hS
    cases hS with
    | allowed _ h hn =>
      rw [hn] at hc
      cases hc
    | addDocument screen w autoID comment h hf hs =>
      cases hc
      exact .inr ⟨ht, hf, hs⟩
    | _ => cases hc

/-- Identifiers in use stay in use. -/
theorem Move.used {s s' : State} (h : Move s s') : s.used ⊆ s'.used := by
  cases h with
  | fresh | saved | uploading | commented => exact List.subset_cons_self _ _
  | _ => exact fun _ h => h

/-- The calls of an add follow one another: one that is sent comes after another
of the add, which has not failed, or starts it. -/
theorem Move.sent_word {s s' : State} (h : Move s s') {p : InFlight} (hp : p ∈ s'.app.net) {w : Word}
    (hw : p.call.word = some w) : p ∈ s.app.net ∨ w.uid ∉ s.used ∨ ∃ q ∈ s.app.net, q.call.word = some w ∧
      (q.call = p.call ∧ q.answer = none ∨ q.call = .dataTask w ∨ ∀ k, q.answer ≠ some ⟨.failed, k⟩) := by
  rcases h.mem_net hp with hp | ⟨q, hq, r, outcome, hn, -, -, rfl⟩ | ⟨-, -, -, hS⟩
  · exact .inl hp
  · exact .inr (.inr ⟨q, hq, hw, .inl ⟨rfl, hn⟩⟩)
  · generalize p.call = call at hw hS
    cases hS with
    | dataTask w' h =>
      cases hw
      exact .inr (.inl h)
    | putData hq hc =>
      cases hw
      exact .inr (.inr ⟨_, hq, by rw [hc]; rfl, .inr (.inl hc)⟩)
    | downloadURL hq hc ha | setData hq hc ha =>
      cases hw
      exact .inr (.inr ⟨_, hq, by rw [hc]; rfl, .inr (.inr (by simp [ha]))⟩)
    | allowed _ h =>
      rw [h.word] at hw
      cases hw
    | addDocument => cases hw

/-- What a move from `s` to `s'` notes. -/
inductive Notes (s s' : State) : Event → Prop
  | saved (sheet : Nat) (w : Word) : Notes s s' (.saved sheet w)
  | closed (w : Word) : Notes s s' (.closed w s.app.modal)
  | deleted (screen : Nat) (w : Word) : Notes s s' (.deleted screen w)
  | issued (t : Nat) (call : Call) : Notes s s' (.issued t call)
  | served {p : InFlight} {r : Request} (hp : p ∈ s.app.net) (ha : p.answer = none)
      (hr : p.call.request s.app.uid = some r) (outcome : Outcome) (hs : s' = s.serve p r outcome) :
      Notes s s' (.served p.ticket p.call outcome)
  | loaded {p : InFlight} {servedAt : Nat} {documents : List (Path × Dictionary)} (hp : p ∈ s.app.net)
      (hc : p.call = .loadData) (ha : p.answer = some ⟨.documents documents, servedAt⟩) :
      Notes s s' (.loaded p.ticket servedAt (documents.map fun d => Word.ofDictionary d.2))
  | reloaded (screen t servedAt : Nat) (comments : List Comment) :
      Notes s s' (.reloaded screen t servedAt comments)
  | opened (row : Nat) (shown w : Word) (hr : s.app.rows[row]? = some shown) (ha : s.app.arr[row]? = some w)
      (hd : s'.app.details s.app.next = some ⟨w, [], 0⟩) : Notes s s' (.opened row shown s.app.next)

/-- An event of the log was there before a move, or the move notes it. -/
theorem Move.mem_log {s s' : State} (h : Move s s') {e : Event} (he : e ∈ s'.app.log) :
    e ∈ s.app.log ∨ Notes s s' e := by
  have noted {log : List Event} {event : Event} (he : e ∈ log ++ [event]) (hn : Notes s s' event) :
      e ∈ log ∨ Notes s s' e := by
    rcases List.mem_append.mp he with he | he
    · exact .inl he
    · rw [List.mem_singleton.mp he]
      exact .inr hn
  cases h with
  | saved sheet title content uid url hf =>
    cases url
    · exact noted he (.saved ..)
    · rcases noted he (.issued ..) with he | hn
      · exact noted he (.saved ..)
      · exact .inr hn
  | closed w => exact noted he (.closed w)
  | deleted screen w => exact noted he (.deleted screen w)
  | reloaded => exact noted he (.reloaded ..)
  | opened row shown w hr ha => exact noted he (.opened row shown w hr ha (Function.update_self ..))
  | loaded hp hc ha => exact noted he (.loaded hp hc ha)
  | served hp ha hr outcome => exact noted he (.served hp ha hr outcome rfl)
  | uploading | lookingUp | writing | issued | commented => exact noted he (.issued ..)
  | fresh | number | screens | rows | dropped => exact .inl he

/-- A request that was served was so before, or is served by the move. -/
theorem Move.served_log {s s' : State} (h : Move s s') {t : Nat} {call : Call} {outcome : Outcome}
    (he : .served t call outcome ∈ s'.app.log) : .served t call outcome ∈ s.app.log ∨
      ∃ r, ⟨t, call, none⟩ ∈ s.app.net ∧ call.request s.app.uid = some r ∧
      s' = s.serve ⟨t, call, none⟩ r outcome := by
  refine (h.mem_log he).imp id fun hn => ?_
  cases hn with
  | @served p r hp ha hr _ hs =>
    obtain ⟨t, call, answer⟩ := p
    cases ha
    exact ⟨r, hp, hr, hs⟩

/-- A list that is handed to the completion is the answer to a query. -/
theorem Move.loaded_log {s s' : State} (h : Move s s') {t k : Nat} {words : List Word}
    (hw : .loaded t k words ∈ s'.app.log) : .loaded t k words ∈ s.app.log ∨ ∃ p ∈ s.app.net, ∃ documents,
      p.call = .loadData ∧ p.answer = some ⟨.documents documents, k⟩ ∧ p.ticket = t ∧
      words = documents.map fun d => Word.ofDictionary d.2 := by
  refine (h.mem_log hw).imp id fun hn => ?_
  cases hn with
  | @loaded p _ documents hp hc ha => exact ⟨p, hp, documents, hc, ha, rfl, rfl⟩

/-- A row that was opened was so before, or is the one that is tapped. -/
theorem Move.opened_log {s s' : State} (h : Move s s') {row : Nat} {shown : Word} {screen : Nat}
    (ho : .opened row shown screen ∈ s'.app.log) : .opened row shown screen ∈ s.app.log ∨
      s.app.rows[row]? = some shown ∧ ∃ w, s.app.arr[row]? = some w ∧
      s'.app.details screen = some ⟨w, [], 0⟩ := by
  refine (h.mem_log ho).imp id fun hn => ?_
  cases hn with
  | opened _ _ w hr ha hd => exact ⟨hr, w, ha, hd⟩

/-! ## Invariants -/

/-- The states reached from a start by moves. -/
def Moved (s : State) : Prop := ∃ s₀, Start s₀ ∧ Moves s₀ s

theorem Moved.inv {I : State → Prop} (h₀ : ∀ s, Start s → I s)
    (hm : ∀ s s', Moved s → I s → Move s s' → I s') {s : State} (h : Moved s) : I s := by
  obtain ⟨s₀, hs, hr⟩ := h
  induction hr with
  | refl => exact h₀ _ hs
  | tail hr h ih => exact hm _ _ ⟨s₀, hs, hr⟩ ih h

theorem Moved.move {s s' : State} (h : Moved s) (hm : Move s s') : Moved s' := by
  obtain ⟨s₀, hs, hr⟩ := h
  exact ⟨s₀, hs, hr.tail hm⟩

theorem Moved.screens {s : State} (h : Moved s) : Screens s :=
  h.inv (fun _ => Screens.start) fun _ _ _ hs h => hs.move h

theorem Moved.tickets {s : State} (h : Moved s) : Tickets s :=
  h.inv (fun _ => Tickets.start) fun _ _ _ ht h => ht.move h

theorem Reach.moved {s : State} (h : Reach s) : Moved s := by
  refine h.inv (fun s hs => ⟨s, hs, .refl⟩) ?_
  rintro s a s' - hm - hst
  obtain ⟨s₀, hs, hr⟩ := id hm
  exact ⟨s₀, hs, hr.trans (step_moves hm.screens hst)⟩

theorem Moves.log {s s' : State} (h : Moves s s') : ∃ events, s'.app.log = s.app.log ++ events := by
  induction h with
  | refl => exact ⟨[], (List.append_nil _).symm⟩
  | tail _ hm ih =>
    obtain ⟨events, he⟩ := ih
    obtain ⟨events', he'⟩ := hm.log
    exact ⟨events ++ events', by rw [he', he, List.append_assoc]⟩

theorem Moves.uid {s s' : State} (h : Moves s s') : s'.app.uid = s.app.uid := by
  induction h with
  | refl => rfl
  | tail _ hm ih => rw [hm.uid, ih]

theorem Moved.moves {s s' : State} (h : Moved s) (hm : Moves s s') : Moved s' := by
  obtain ⟨s₀, hs, hr⟩ := h
  exact ⟨s₀, hs, hr.trans hm⟩

/-- A run is a sequence of moves. -/
theorem Reach.runs_moves {s s' : State} {as : List Action} (h : Reach s) (hr : Runs step anyStep s as s') :
    Moves s s' := by
  induction hr with
  | nil => exact .refl
  | snoc hr _ hs ih => exact ih.trans (step_moves (Reach.moved (h.runs hr)).screens hs)

/-- What happened stays in the log. -/
theorem Reach.mem_log {s s' : State} {as : List Action} {e : Event} (h : Reach s)
    (hr : Runs step anyStep s as s')
    (he : e ∈ s.app.log) : e ∈ s'.app.log := by
  obtain ⟨events, hl⟩ := (h.runs_moves hr).log
  rw [hl]
  exact List.mem_append_left _ he

end BlindBoard
