import BlindBoard.Proof.Fetches
import Mathlib.Data.Multiset.AddSub

/-!
# The desk: sheets, the loader and the operations behind them

What is presented, which view the loader was shown in and what the operations
still wait for depend on each other only (`Desk`), apart from the question
whether the loader's view is still there. `act_turn` says all that a step can do
to the desk; an invariant of sheets and loader is a case analysis of `Turn`.
-/

namespace BlindBoard

open Lib

/-- What a user starts: a save or a confirmed deletion. -/
inductive Op where
  | add (word : Word)
  | delete (screen : Nat)
  deriving DecidableEq

/-- A request of an operation, and whether a closure of the operation awaits its answer. -/
structure Task where
  op : Op
  awaited : Bool
  deriving DecidableEq

def Call.task : Call → Option Task
  | .dataTask w | .putData w _ _ | .downloadURL w _ => some ⟨.add w, true⟩
  | .setData w _ _ _ => some ⟨.add w, false⟩
  | .deleteObject screen _ => some ⟨.delete screen, true⟩
  | .deleteDocument screen _ => some ⟨.delete screen, false⟩
  | _ => none

/-- A Save tap, the start of an upload, or the completion of an add. -/
def Event.noted : Event → Bool
  | .saved _ _ | .issued _ (.putData _ _ _) | .closed _ _ => true
  | _ => false

structure Desk where
  modal : Option Modal
  hud : Option View
  tasks : Multiset Task
  notes : List Event

def App.tasks (a : App) : Multiset Task := (a.net.filterMap fun p => p.call.task : List Task)

def App.desk (a : App) : Desk := ⟨a.modal, a.hud, a.tasks, a.log.filter Event.noted⟩

/-- The closure that awaits the answer goes on with its operation, or completes it. -/
def InFlight.succeeds (p : InFlight) : Bool :=
  match p.call, p.answer with
  | .putData .., some answer | .deleteObject .., some answer => answer.reply = .done
  | .downloadURL .., some answer => match answer.reply with | .url _ => true | _ => false
  | _, _ => false

/-- The step ends an operation without hiding the loader. -/
def State.endsEarly (s : State) : Action → Bool
  | .saveBoard title content _ url => !url && !(title = some "" || content = some "")
  | .searched _ web _ =>
    match ImageService.imagesFetched web with
    | some image => image ≠ UIImage.empty && (web.jpegData image).isNone
    | none => true
  | .answer ticket _ => (s.app.find ticket).any fun p => p.call.task.any Task.awaited && !p.succeeds
  | _ => false

/-- The step presents a modal screen. -/
def Action.presents : Action → Bool
  | .writing | .deleteWord | .addComment => true
  | _ => false

/-- What a step from `s` to `s'` does to the desk. -/
inductive Turn (s s' : State) : Action → Prop
  | idle {a : Action} (h : s'.app.desk = s.app.desk) : Turn s s' a
  | presented {a : Action} (m : Modal) (ha : a.presents = true) (hm : s.app.modal = none)
      (hn : ∀ n, m = .addWord n → n = s.app.next ∧ n < s'.app.next)
      (h : s'.app.desk = { s.app.desk with modal := some m }) : Turn s s' a
  | left {a : Action} (h : s'.app.desk = { s.app.desk with modal := none }) : Turn s s' a
  | saved {title content : Option String} {uid : UUID} {url : Bool} (sheet : Nat) (w : Word)
      (hm : s.app.modal = some (.addWord sheet)) (ha : ¬ (title = some "" ∨ content = some ""))
      (hw : w.uid = uid.uuidString)
      (hf : uid.uuidString ∉ s.used) (h : s'.app.desk = { s.app.desk with
        hud := (s.app.showLoader (.addWord sheet) true).hud
        tasks := (if url then {⟨.add w, true⟩} else 0) + s.app.desk.tasks, notes :=
          s.app.desk.notes ++ [.saved sheet w] }) :
      Turn s s' (.saveBoard title content uid url)
  | deleted (screen : Nat) (hm : s.app.modal = some (.deleteAlert screen))
      (h : s'.app.desk = { s.app.desk with
        modal := none, hud := (s.app.showLoader (.detail screen) true).hud
        tasks := ⟨.delete screen, true⟩ ::ₘ ⟨.delete screen, false⟩ ::ₘ s.app.desk.tasks }) :
      Turn s s' .confirmDelete
  /-- A request that nothing awaits is answered, or an operation ends early. -/
  | ended {a : Action} (t : Task) (tasks : Multiset Task) (ht : s.app.desk.tasks = t ::ₘ tasks)
      (ha : t.awaited = true → s.endsEarly a = true)
      (h : s'.app.desk = { s.app.desk with tasks }) : Turn s s' a
  /-- The image search has found nothing. -/
  | notFound {a : Action} (p : InFlight) (w : Word) (tasks : Multiset Task) (hp : p ∈ s.app.net)
      (hc : p.call = .dataTask w) (ht : s.app.desk.tasks = ⟨.add w, true⟩ ::ₘ tasks)
      (h : s'.app.desk = { s.app.desk with hud := none, tasks }) : Turn s s' a
  | uploading {a : Action} (t : Nat) (w : Word) (fileName : String) (imageData : Data)
      (ht : ⟨.add w, true⟩ ∈ s.app.desk.tasks) (h : s'.app.desk = { s.app.desk with
        notes := s.app.desk.notes ++ [.issued t (.putData w fileName imageData)] }) : Turn s s' a
  | completed {a : Action} (w : Word) (tasks : Multiset Task)
      (ht : s.app.desk.tasks = ⟨.add w, true⟩ ::ₘ tasks)
      (h : s'.app.desk = ⟨none, none, ⟨.add w, false⟩ ::ₘ tasks,
        s.app.desk.notes ++ [.closed w s.app.modal]⟩) :
      Turn s s' a
  /-- The image is deleted, and the screen popped. -/
  | popped {a : Action} (screen : Nat) (tasks : Multiset Task)
      (ht : s.app.desk.tasks = ⟨.delete screen, true⟩ ::ₘ tasks)
      (hp : s'.app.pushed ≠ some screen)
      (h : s'.app.desk = { s.app.desk with hud := none, tasks }) : Turn s s' a

/-! ## The tasks in flight -/

/-- The numbers of the calls in flight are distinct. -/
def State.Distinct (s : State) : Prop := (s.app.net.map InFlight.ticket).Nodup

theorem Move.distinct {s s' : State} (hm : Move s s') (ht : Tickets s) (h : s.Distinct) : s'.Distinct := by
  have taken (t : Nat) : ((s.app.take t).net.map InFlight.ticket).Nodup :=
    h.sublist (List.filter_sublist.map _)
  -- a new call, or one that is put back, has a number of its own
  have add {net : List InFlight} {p : InFlight} (hn : (net.map InFlight.ticket).Nodup)
      (hp : ∀ q ∈ net, q.ticket ≠ p.ticket) : ((net ++ [p]).map InFlight.ticket).Nodup := by
    rw [List.map_append, List.nodup_append]
    refine ⟨hn, List.nodup_singleton _, fun t ht t' ht' => ?_⟩
    obtain ⟨q, hq, hqt⟩ := List.mem_map.mp ht
    rw [List.mem_singleton.mp ht', ← hqt]
    exact hp q hq
  have below (t : Nat) : ∀ q ∈ (s.app.take t).net, q.ticket ≠ s.app.next := fun q hq =>
    (ht.below q (List.mem_filter.mp hq).1).ne
  cases hm with
  | dropped | loaded | reloaded => exact taken _
  | saved sheet title content uid url =>
    cases url
    · exact h
    · exact add h fun q hq => (ht.below q hq).ne
  | uploading | lookingUp | writing => exact add (taken _) (below _)
  | served hp ha hr outcome => exact add (taken _) fun q hq => by simpa using (List.mem_filter.mp hq).2
  | issued | commented => exact add h fun q hq => (ht.below q hq).ne
  | _ => exact h

theorem Moved.distinct {s : State} (h : Moved s) : s.Distinct :=
  h.inv (fun s hs => by rw [State.Distinct, hs.launch]; exact List.nodup_nil) fun _ _ hr hd hm =>
    hm.distinct hr.tickets hd

namespace App

variable {a : App}

@[simp] theorem tasks_issue (call : Call) :
    (a.issue call).tasks = (call.task.toList : Multiset Task) + a.tasks := by
  cases h : call.task <;> simp [tasks, issue, h, List.filterMap_append]

theorem tasks_take {s : State} (h : s.Distinct) {p : InFlight} (hp : p ∈ s.app.net) :
    s.app.tasks = (p.call.task.toList : Multiset Task) + (s.app.take p.ticket).tasks := by
  have hnet : s.app.net.Nodup := h.of_map
  have he : s.app.net.erase p = (s.app.take p.ticket).net := by
    rw [hnet.erase_eq_filter, take]
    refine List.filter_congr fun q hq => ?_
    have : q = p ↔ q.ticket = p.ticket := ⟨fun e => e ▸ rfl, List.inj_on_of_nodup_map h hq hp⟩
    simp [bne, this, Bool.beq_eq_decide_eq]
  have hperm := (List.perm_cons_erase hp).filterMap fun p => p.call.task
  rw [he, List.filterMap_cons] at hperm
  rw [tasks, tasks]
  cases ht : p.call.task <;> simp only [ht] at hperm <;> simpa using hperm

/-- A call that belongs to no operation is answered. -/
theorem tasks_take_none {s : State} (h : s.Distinct) {p : InFlight} (hp : p ∈ s.app.net)
    (hc : p.call.task = none) :
    (s.app.take p.ticket).tasks = s.app.tasks := by
  rw [tasks_take h hp, hc]
  exact (Multiset.zero_add _).symm

theorem tasks_take_some {s : State} (h : s.Distinct) {p : InFlight} (hp : p ∈ s.app.net) {t : Task}
    (hc : p.call.task = some t) : s.app.tasks = t ::ₘ (s.app.take p.ticket).tasks := by
  rw [tasks_take h hp, hc]
  exact Multiset.singleton_add t _

/-! ## What the handlers do to the desk -/

theorem desk_showLoader (v : View) (b : Bool) :
    (a.showLoader v b).desk = { a.desk with hud := (a.showLoader v b).hud } := by
  obtain ⟨hud, h⟩ := a.showLoader_hud v b
  rw [h]
  rfl

theorem desk_issue (call : Call) : (a.issue call).desk =
    { a.desk with
      tasks := (call.task.toList : Multiset Task) + a.tasks
      notes := a.desk.notes ++ [.issued a.next call].filter Event.noted } := by
  rw [desk, tasks_issue, issue, List.filter_append]
  rfl

/-- A call that belongs to no operation is sent. -/
theorem desk_issue_none {call : Call} (h : call.task = none) : (a.issue call).desk = a.desk := by
  have hn : Event.noted (.issued a.next call) = false := by cases call <;> first | rfl | cases h
  rw [desk_issue, h, List.filter_singleton, hn]
  simp [desk]

/-- A call of an operation is sent that is not an upload. -/
theorem desk_issue_some {call : Call} {t : Task} (h : call.task = some t)
    (hn : Event.noted (.issued a.next call) = false) :
    (a.issue call).desk = { a.desk with tasks := t ::ₘ a.tasks } := by
  simp [desk_issue, h, hn]

theorem desk_addContent (w : Word) (url : Bool) : (a.addContent w url).desk =
    { a.desk with tasks := (if url then {⟨.add w, true⟩} else 0) + a.tasks } := by
  cases url
  · simp [addContent, desk]
  · rw [addContent, if_pos rfl, desk_issue_some rfl rfl]
    simp

theorem desk_fetchComment (screen : Nat) : (a.fetchComment screen).desk = a.desk := by
  unfold fetchComment
  split
  · exact desk_issue_none rfl
  · rfl

theorem desk_commentsReloaded (screen ticket servedAt : Nat) (documents : List (Path × Dictionary)) :
    (a.commentsReloaded screen ticket servedAt documents).desk = a.desk := by
  unfold commentsReloaded
  split
  · split
    · simp [desk, tasks, Event.noted]
    · rfl
  · rfl

theorem desk_boardLoaded (ticket servedAt : Nat) (documents : List (Path × Dictionary)) :
    (a.boardLoaded ticket servedAt documents).desk = a.desk := by
  simp [boardLoaded, desk, tasks, Event.noted]

theorem desk_didSelectRow (row : Nat) (shown : Word) : (a.didSelectRow row shown).desk = a.desk := by
  unfold didSelectRow
  split
  · rw [desk_issue_none rfl]
    simp [desk, tasks, Event.noted]
  · rfl

theorem desk_cellForRowAt (row : Nat) : (a.cellForRowAt row).desk = a.desk := by
  unfold cellForRowAt
  split <;> rfl

theorem desk_commentRow (screen row : Nat) (select : Bool) :
    (a.commentRow screen row select).desk = a.desk := by
  unfold commentRow
  repeat' split
  all_goals rfl

theorem desk_addCompleted (w : Word) (imageUrl fileName now : String) :
    (a.addCompleted w imageUrl fileName now).desk =
    ⟨none, none, ⟨.add w, false⟩ ::ₘ a.tasks, a.desk.notes ++ [.closed w a.modal]⟩ := by
  rw [addCompleted, desk_showLoader, fetchBoard, desk_issue_none rfl]
  simp [dismiss, record, desk, issue, tasks, Call.task, Event.noted, showLoader,
    List.filterMap_append, List.filter_append]

end App

/-- A request that is served stays in flight. -/
theorem App.desk_serve {s : State} (hd : s.Distinct) {p : InFlight} (hp : p ∈ s.app.net) (r : Request)
    (outcome : Outcome) : (s.serve p r outcome).app.desk = s.app.desk := by
  have ht : (s.serve p r outcome).app.tasks = (p.call.task.toList : Multiset Task) +
    (s.app.take p.ticket).tasks := by
    cases hc : p.call.task <;> simp [App.tasks, State.serve, List.filterMap_append, hc]
  rw [App.desk, ht, ← App.tasks_take hd hp]
  simp [State.serve, App.desk, App.take, Event.noted]

section Turn

variable {s s' : State}

theorem saveBoard_turn {sheet : Nat} {title content : Option String} {uid : UUID} {url : Bool}
    (hm : s.app.modal = some (.addWord sheet)) (hf : uid.uuidString ∉ s.used) :
    Turn s { s with used := uid.uuidString :: s.used, app := s.app.saveBoard sheet title content uid url }
      (.saveBoard title content uid url) := by
  unfold App.saveBoard
  split
  · exact .idle rfl
  next ha =>
    refine .saved sheet ⟨title.getD "no item", content.getD "no content",
      uid.uuidString, "", ""⟩ hm ha rfl hf ?_
    obtain ⟨hud, hh⟩ := s.app.showLoader_hud (.addWord sheet) true
    simp only [App.desk_addContent, hh]
    simp [App.desk, App.record, App.tasks, Event.noted, List.filter_append]

theorem searched_turn (hd : s.Distinct) {p : InFlight} {w : Word} (hp : p ∈ s.app.net)
    (hc : p.call = .dataTask w)
    {ticket : Nat} {web : Web} {fileName : UUID} :
    Turn s { s with
      used := fileName.uuidString :: s.used, app := (s.app.take p.ticket).imagesFetched w web fileName }
      (.searched ticket web fileName) := by
  have ht : s.app.desk.tasks = ⟨.add w, true⟩ ::ₘ (s.app.take p.ticket).tasks :=
    App.tasks_take_some hd hp (by rw [hc]; rfl)
  unfold App.imagesFetched
  split
  next image hi =>
    split
    · exact .notFound p w _ hp hc ht rfl
    next hne =>
      unfold App.imageUpload
      split
      next imageData hj =>
        refine .uploading s.app.next w fileName.uuidString imageData (ht ▸ Multiset.mem_cons_self _ _) ?_
        have ht' : s.app.tasks = _ := ht
        rw [App.desk_issue]
        simp [Call.task, App.desk, App.take, Event.noted, ht']
      next hj =>
        exact .ended _ _ ht (fun _ => by simp [State.endsEarly, hi, hne, hj]) rfl
  next hi => exact .ended _ _ ht (fun _ => by simp [State.endsEarly, hi]) rfl

theorem deleteConfirmed_turn {screen : Nat} (hm : s.app.modal = some (.deleteAlert screen)) :
    Turn s { s with app := s.app.deleteConfirmed screen } .confirmDelete := by
  unfold App.deleteConfirmed
  split
  next d _ =>
    refine .deleted screen hm ?_
    obtain ⟨hud, hh⟩ := s.app.showLoader_hud (.detail screen) true
    rw [hh]
    set b : App := App.record _ _ with hb
    have h₁ : (b.issue (.deleteDocument screen d.board.uid)).desk = _ := b.desk_issue_some rfl rfl
    have h₂ : ((b.issue (.deleteDocument screen d.board.uid)).issue
      (.deleteObject screen d.board.imageFileName)).desk = _ :=
      (b.issue (.deleteDocument screen d.board.uid)).desk_issue_some rfl rfl
    rw [App.tasks_issue, h₁] at h₂
    refine (congrArg (fun d : Desk => { d with modal := none }) h₂).trans ?_
    simp [hb, App.record, App.desk, App.tasks, Call.task, Event.noted]
  · exact .idle rfl

theorem objectDeleted_turn (hd : s.Distinct) {p : InFlight} {screen : Nat}
    {fileName : String} (hp : p ∈ s.app.net)
    (hc : p.call = .deleteObject screen fileName) {a : Action} :
    Turn s { s with app := (s.app.take p.ticket).objectDeleted screen } a := by
  rw [App.objectDeleted_eq]
  refine .popped screen _ (App.tasks_take_some hd hp (by rw [hc]; rfl)) ?_ rfl
  show (if s.app.pushed = some screen then none else s.app.pushed) ≠ some screen
  split <;> simp_all

theorem answered_turn (hd : s.Distinct) {p : InFlight} (hp : p ∈ s.app.net)
    (hf : s.app.find p.ticket = some p)
    {answer : Answer} (ha : p.answer = some answer) (now : String) :
    Turn s { s with app := (s.app.take p.ticket).answered p.ticket p.call answer now }
      (.answer p.ticket now) := by
  -- the call belongs to no operation, and its closure does nothing to the desk
  have idle {a' : App} (hn : p.call.task = none) (h : a'.desk = (s.app.take p.ticket).desk) :
      Turn s { s with app := a' } (.answer p.ticket now) := by
    refine .idle (h.trans ?_)
    rw [App.desk, App.tasks_take_none hd hp hn]
    rfl
  unfold App.answered
  split
  next w f d hc hr =>
    refine .idle ?_
    rw [App.desk_issue_some rfl rfl, ← App.tasks_take_some hd hp (by rw [hc]; rfl)]
    rfl
  next w f u hc hr =>
    refine .completed w _ (App.tasks_take_some hd hp (by rw [hc]; rfl)) ?_
    exact App.desk_addCompleted ..
  next documents hc hr => exact idle (by rw [hc]; rfl) (App.desk_boardLoaded ..)
  next screen f hc hr => exact objectDeleted_turn hd hp hc
  next screen uid documents hc hr => exact idle (by rw [hc]; rfl) (App.desk_commentsReloaded ..)
  next screen uid autoID comment hc => exact idle (by rw [hc]; rfl) (App.desk_fetchComment _)
  next hput hurl _ hdel _ =>
    cases ht : p.call.task with
    | none => exact idle ht rfl
    | some t =>
      refine .ended t _ (App.tasks_take_some hd hp ht) (fun hw => ?_) rfl
      have hs : p.succeeds = false := by
        unfold InFlight.succeeds
        rw [ha]
        split
        next w f d a hc h => cases h; simpa using hput w f d hc
        next n f a hc h => cases h; simpa using hdel n f hc
        next w f a hc h =>
          cases h
          split
          next u hu => exact absurd hu (hurl w f u hc)
          · rfl
        · rfl
      simp [State.endsEarly, hf, ht, hw, hs]

end Turn

theorem act_turn {s s' : State} {a : Action} (hd : s.Distinct) (h : act s a = some s') : Turn s s' a := by
  cases act_iff.mp h with
  | viewDidLoad | viewWillAppear | updateData => exact .idle (App.desk_issue_none rfl)
  | writing hp hm =>
    refine .presented (.addWord s.app.next) rfl hm ?_ rfl
    rintro n ⟨⟩
    exact ⟨rfl, Nat.lt_succ_self _⟩
  | saveBoard title content uid url hm hf => exact saveBoard_turn hm hf
  | swipeDown | cancelDelete => exact .left rfl
  | didSelectRow => exact .idle (App.desk_didSelectRow ..)
  | back | reloadTable | mainQueue => exact .idle rfl
  | @deleteWord screen hp hm => exact .presented (.deleteAlert screen) rfl hm (fun n h => by cases h) rfl
  | confirmDelete hm => exact deleteConfirmed_turn hm
  | @addComment screen hp hm =>
    unfold App.addComment
    split
    next d _ => exact .presented (.addComment s.app.next screen d.board) rfl hm (fun n h => by cases h) rfl
    · exact .idle rfl
  | @saveComment sheet screen board text now autoID =>
    refine .left ?_
    have hi : (s.app.issue (.addDocument screen board.uid autoID ⟨text.getD "", now⟩)).desk = s.app.desk :=
      s.app.desk_issue_none rfl
    exact congrArg (fun d : Desk => { d with modal := none }) hi
  | boardRow => exact .idle (App.desk_cellForRowAt ..)
  | commentRow => exact .idle (App.desk_commentRow ..)
  | serve outcome hf => exact .idle (App.desk_serve hd (App.find_mem hf).1 _ outcome)
  | searched web fileName hf hc => exact searched_turn hd (App.find_mem hf).1 hc
  | answer now hf ha => exact answered_turn hd (App.find_mem hf).1 hf ha now

theorem Reach.turn {s s' : State} {a : Action} (hr : Reach s) (h : step s a = some s') : Turn s s' a :=
  act_turn (Reach.moved hr).distinct (act_of_step h)

end BlindBoard
