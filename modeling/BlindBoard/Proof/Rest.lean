import BlindBoard.Proof.Loader
import Mathlib.Algebra.GroupWithZero.Nat
import Mathlib.Algebra.Order.BigOperators.Group.List

/-!
# The app comes to rest

Once the user stops, the services and the main queue have only so much left to
do. `App.work` counts it: each call in flight counts for the steps that it
can still lead to, the image search of an add for the most. A step of a service
lowers the count (`service_work`), so whatever the services answer, and in
whichever order, there are at most that many steps, and when none is left to
take, nothing is in flight (`comes_to_rest`).

Where no operation ends early the loader is gone by then, however many operations
were started at once and whichever took it away (`loader_rests`). And the one
step that can end a launch is a row callback of a comment table (`crashes_iff`).
-/

namespace BlindBoard

open Lib

/-- A step of a service or of the main queue. -/
def Action.service : Action → Bool
  | .mainQueue | .serve .. | .searched .. | .answer .. => true
  | _ => false

/-- The steps that a call can lead to once it is served: its answer, and those of the calls
that its closure sends. -/
def Call.work : Call → ℕ
  | .dataTask _ => 8
  | .putData .. => 7
  | .downloadURL .. => 5
  | .addDocument .. => 4
  | .reloadComment .. => 2
  | .loadData | .setData .. | .deleteDocument .. | .deleteObject .. => 1

def InFlight.work (p : InFlight) : ℕ :=
  match p.call, p.answer with
  | .dataTask _, _ => 9
  | call, none => call.work + 1
  | call, some _ => call.work

theorem InFlight.work_sent (t : Nat) (call : Call) : InFlight.work ⟨t, call, none⟩ = call.work + 1 := by
  cases call <;> rfl

theorem InFlight.work_answered {p : InFlight} {answer : Answer} (h : p.answer = some answer) :
    p.call.work ≤ p.work := by
  obtain ⟨t, call, _⟩ := p
  cases h
  cases call <;> simp [work, Call.work]

/-- The steps that are left when the user stops. -/
def App.work (a : App) : ℕ := (a.net.map InFlight.work).sum + a.mainQueue.length

namespace App

variable {a : App}

theorem work_issue (a : App) (call : Call) : (a.issue call).work = a.work + (call.work + 1) := by
  simp only [work, issue, List.map_append, List.sum_append, List.map_cons,
    List.map_nil, List.sum_singleton, InFlight.work_sent]
  omega

/-- A call that is taken counts no more. -/
theorem work_take {p : InFlight} (hp : p ∈ a.net) : (a.take p.ticket).work + p.work ≤ a.work := by
  obtain ⟨l, l', hl⟩ := List.append_of_mem hp
  have hfilter : (a.take p.ticket).net.Sublist (l ++ l') := by
    simp only [take, hl, List.filter_append, List.filter_cons, ne_eq, not_true_eq_false,
      decide_false, Bool.false_eq_true,
      if_false]
    exact List.filter_sublist.append List.filter_sublist
  have hsum := (hfilter.map InFlight.work).sum_le_sum fun _ _ => Nat.zero_le _
  have hq : (a.take p.ticket).mainQueue = a.mainQueue := rfl
  simp only [work, hq, hl, List.map_append, List.map_cons, List.sum_append, List.sum_cons] at hsum ⊢
  omega

theorem work_showLoader (a : App) (view : View) (b : Bool) : (a.showLoader view b).work = a.work := by
  cases b
  · rfl
  · simp only [showLoader]
    split <;> rfl

theorem work_fetchComment (a : App) (screen : Nat) : (a.fetchComment screen).work ≤ a.work + 3 := by
  unfold fetchComment
  split
  · rw [work_issue]
    rfl
  · omega

theorem work_commentsReloaded (a : App) (screen ticket servedAt : Nat)
    (documents : List (Path × Dictionary)) :
    (a.commentsReloaded screen ticket servedAt documents).work ≤ a.work + 1 := by
  unfold commentsReloaded
  split
  · split
    · simp only [work, List.length_append, List.length_singleton]
      omega
    · omega
  · omega

theorem work_objectDeleted (a : App) (screen : Nat) : (a.objectDeleted screen).work = a.work := by
  simp only [objectDeleted]
  split <;> rfl

theorem work_addCompleted (a : App) (word : Word) (imageUrl fileName now : String) :
    (a.addCompleted word imageUrl fileName now).work = a.work + 4 := by
  unfold addCompleted fetchBoard
  rw [work_showLoader, work_issue]
  exact congrArg (· + 2) (a.work_issue (.setData word now imageUrl fileName))

theorem work_imagesFetched (a : App) (word : Word) (web : Web) (fileName : UUID) :
    (a.imagesFetched word web fileName).work ≤ a.work + 8 := by
  unfold imagesFetched
  split
  · split
    · rw [work_showLoader]
      omega
    · unfold imageUpload
      split
      · rw [work_issue]
        rfl
      · omega
  · omega

/-- A closure sends no more than its call counts for. -/
theorem work_answered (a : App) (ticket : Nat) (call : Call) (answer : Answer) (now : String) :
    (a.answered ticket call answer now).work < a.work + call.work := by
  have hpos : 0 < call.work := by cases call <;> simp [Call.work]
  unfold answered
  split
  · rw [work_issue]
    simp [Call.work]
  · rw [work_addCompleted]
    simp [Call.work]
  · exact Nat.lt_succ_self _
  · rw [work_objectDeleted]
    exact Nat.lt_succ_self _
  · exact (a.work_commentsReloaded _ _ _ _).trans_lt (Nat.lt_succ_self _)
  · exact (a.work_fetchComment _).trans_lt (Nat.lt_succ_self _)
  · omega

end App

/-- Each step of a service or of the main queue leaves less to do. -/
theorem service_work {s s' : State} {a : Action} (ha : a.service = true) (h : act s a = some s') :
    s'.app.work < s.app.work := by
  cases act_iff.mp h with
  | mainQueue hq => simp [App.work, App.reloadTable, hq]
  | @serve p r outcome hf hn hr =>
    have ht := App.work_take (App.find_mem hf).1
    have hsent : p.work = p.call.work + 1 := by
      obtain ⟨t, call, answer⟩ := p
      cases hn
      exact InFlight.work_sent t call
    have hserved : InFlight.work ⟨p.ticket, p.call,
      some ⟨(s.cloud.serve r outcome).2, s.app.log.length⟩⟩ = p.call.work := by
      cases hc : p.call <;> first | rfl | rw [hc] at hr; cases hr
    have hq : (s.serve p r outcome).app.work = (s.app.take p.ticket).work + p.call.work := by
      rw [← hserved]
      simp only [App.work, State.serve, List.map_append, List.sum_append,
        List.map_cons, List.map_nil, List.sum_singleton]
      omega
    omega
  | @searched p word web fileName hf hc hu =>
    have ht := App.work_take (App.find_mem hf).1
    have hi := (s.app.take p.ticket).work_imagesFetched word web fileName
    have hw : p.work = 9 := by rw [InFlight.work, hc]
    change ((s.app.take p.ticket).imagesFetched word web fileName).work < s.app.work
    omega
  | @answer p answer now hf hn =>
    have ht := App.work_take (App.find_mem hf).1
    have hw := (s.app.take p.ticket).work_answered p.ticket p.call answer now
    have hanswered := p.work_answered hn
    change ((s.app.take p.ticket).answered p.ticket p.call answer now).work < s.app.work
    omega
  | _ => cases ha

/-! ## Crashes -/

namespace App

variable (a : App)

theorem crashed_showLoader (view : View) (b : Bool) : (a.showLoader view b).crashed = a.crashed := by
  obtain ⟨hud, h⟩ := a.showLoader_hud view b
  rw [h]

theorem crashed_addContent (word : Word) (url : Bool) : (a.addContent word url).crashed = a.crashed := by
  cases url <;> rfl

theorem crashed_saveBoard (sheet : Nat) (title content : Option String) (uid : UUID) (url : Bool) :
    (a.saveBoard sheet title content uid url).crashed = a.crashed := by
  unfold saveBoard
  split
  · rfl
  · exact (crashed_addContent _ _ _).trans (a.crashed_showLoader _ _)

theorem crashed_imagesFetched (word : Word) (web : Web) (fileName : UUID) :
    (a.imagesFetched word web fileName).crashed = a.crashed := by
  unfold imagesFetched
  split
  · split
    · rfl
    · unfold imageUpload
      split <;> rfl
  · rfl

theorem crashed_fetchComment (screen : Nat) : (a.fetchComment screen).crashed = a.crashed := by
  unfold fetchComment
  split <;> rfl

theorem crashed_commentsReloaded (screen ticket servedAt : Nat) (documents : List (Path × Dictionary)) :
    (a.commentsReloaded screen ticket servedAt documents).crashed = a.crashed := by
  unfold commentsReloaded
  split
  · split <;> rfl
  · rfl

theorem crashed_deleteConfirmed (screen : Nat) : (a.deleteConfirmed screen).crashed = a.crashed := by
  unfold deleteConfirmed
  split
  · exact a.crashed_showLoader _ _
  · rfl

theorem crashed_answered (ticket : Nat) (call : Call) (answer : Answer) (now : String) :
    (a.answered ticket call answer now).crashed = a.crashed := by
  unfold answered
  split
  · rfl
  · rfl
  · rfl
  · rw [objectDeleted_eq]
  · exact a.crashed_commentsReloaded _ _ _ _
  · exact a.crashed_fetchComment _
  · rfl

theorem crashed_cellForRowAt {row : Nat} (h : row < a.arr.length) :
    (a.cellForRowAt row).crashed = a.crashed := by
  simp [cellForRowAt, h]

theorem crashed_didSelectRow {row : Nat} {shown word : Word} (h : a.arr[row]? = some word) :
    (a.didSelectRow row shown).crashed = a.crashed := by
  simp only [didSelectRow, h]
  rfl

theorem crashed_commentRow {screen row : Nat} {select : Bool} {d : Detail} (h : a.details screen = some d)
    (hc : a.crashed = false) : (a.commentRow screen row select).crashed = true ↔ d.arr.length ≤ row := by
  rcases Nat.lt_or_ge row d.arr.length with hlt | hge
  · cases select <;> simp [commentRow, h, Detail.didSelectRowAt, Detail.cellForRowAt, hlt, hc]
  · cases select <;> simp [commentRow, h, Detail.didSelectRowAt, Detail.cellForRowAt, hge]

end App

/-- Of all steps only a row callback of a comment table can crash the launch, and does so
exactly when its row is not below the comments of its screen. -/
theorem crashes_iff {s s' : State} {a : Action} (h : Reach s) (hs : step s a = some s') :
    s'.app.crashed = true ↔ ∃ screen row select d, a = .commentRow screen row select ∧
    s.app.details screen = some d ∧
      row < d.rows ∧ d.arr.length ≤ row := by
  obtain ⟨hc, hact⟩ : s.app.crashed = false ∧ act s a = some s' := by
    simpa [step] using hs
  have other (ha : ∀ screen row select, a ≠ .commentRow screen row select)
    (he : s'.app.crashed = s.app.crashed) :
      s'.app.crashed = true ↔ ∃ screen row select d, a = .commentRow screen row select ∧
        s.app.details screen = some d ∧
        row < d.rows ∧ d.arr.length ≤ row := by
    rw [he, hc]
    exact ⟨nofun, fun ⟨screen, row, select, _, hx, _⟩ => absurd hx (ha screen row select)⟩
  cases act_iff.mp hact with
  | @commentRow screen row d select hd hr =>
    refine (App.crashed_commentRow s.app hd hc).trans
      ⟨fun hle => ⟨screen, row, select, d, rfl, hd, hr, hle⟩, ?_⟩
    rintro ⟨screen', row', select', d', ha, hd', -, hle⟩
    cases ha
    cases hd.symm.trans hd'
    exact hle
  | boardRow hr =>
    -- the rows are drawn in the turn in which the list is assigned
    rw [(Reach.moved h).provenance.rows] at hr
    exact other nofun (s.app.crashed_cellForRowAt hr)
  | @didSelectRow row shown hp hm hr =>
    rw [(Reach.moved h).provenance.rows] at hr
    exact other nofun (s.app.crashed_didSelectRow hr)
  | saveBoard => exact other nofun (s.app.crashed_saveBoard _ _ _ _ _)
  | confirmDelete => exact other nofun (s.app.crashed_deleteConfirmed _)
  | addComment =>
    refine other nofun ?_
    simp only [App.addComment]
    split <;> rfl
  | searched => exact other nofun (App.crashed_imagesFetched _ _ _ _)
  | answer => exact other nofun (App.crashed_answered _ _ _ _ _)
  | _ => exact other nofun rfl

/-! ## Rest -/

/-- A service's step does not crash the launch. -/
theorem crashed_service {s s' : State} {a : Action} (ha : a.service = true) (h : act s a = some s') :
    s'.app.crashed = s.app.crashed := by
  cases act_iff.mp h with
  | mainQueue => rfl
  | serve => rfl
  | searched => exact App.crashed_imagesFetched _ _ _ _
  | answer => exact App.crashed_answered _ _ _ _ _
  | _ => cases ha

/-- While something is left to do, some service can take a step. -/
theorem exists_service {s : State} (hc : s.app.crashed = false) {u : UUID} (hu : u.uuidString ∉ s.used)
    (h : ¬ (s.Quiet ∧ s.app.mainQueue = [])) : ∃ a s', a.service = true ∧ step s a = some s' := by
  have taken {a : Action} {s' : State} (ha : a.service = true) (h : Acts s a s') :
      ∃ a s', a.service = true ∧ step s a = some s' :=
    ⟨a, s', ha, by rw [step, hc]; exact act_iff.mpr h⟩
  cases hq : s.app.mainQueue with
  | cons screen rest => exact taken rfl (.mainQueue hq)
  | nil =>
    obtain ⟨p, hp⟩ := List.exists_mem_of_ne_nil s.app.net fun hn => h ⟨hn, hq⟩
    obtain ⟨q, hf⟩ : ∃ q, s.app.find p.ticket = some q :=
      Option.isSome_iff_exists.mp (List.find?_isSome.mpr ⟨p, hp, by simp⟩)
    have ht := (App.find_mem hf).2
    rw [← ht] at hf
    cases ha : q.answer with
    | some answer => exact taken rfl (.answer "" hf ha)
    | none =>
      cases hr : q.call.request s.app.uid with
      | some r => exact taken rfl (.serve .failure hf ha hr)
      | none =>
        cases hcall : q.call with
        | dataTask word => exact taken rfl (.searched found u hf hcall hu)
        | _ => rw [hcall] at hr; cases hr

/-- At rest there is nothing to do. -/
theorem no_service {s s' : State} {a : Action} (hn : s.Quiet) (hq : s.app.mainQueue = [])
    (ha : a.service = true)
    (h : act s a = some s') : False := by
  have hnet : s.app.net = [] := hn
  have none {t : Nat} {p : InFlight} (hf : s.app.find t = some p) : False := by
    have := (App.find_mem hf).1
    simp [hnet] at this
  cases act_iff.mp h with
  | mainQueue hq' => simp [hq] at hq'
  | serve _ hf => exact none hf
  | searched _ _ hf => exact none hf
  | answer _ hf => exact none hf
  | _ => cases ha

/-- Whatever the services answer, and in whichever order, they and the main queue take at most
`work` steps; and they can take one more exactly as long as something is in flight or waits on
the main queue. -/
theorem comes_to_rest {s s' : State} {as : List Action} (hc : s.app.crashed = false)
    (hr : Runs step (fun _ a => a.service = true) s as s') {u : UUID} (hu : u.uuidString ∉ s'.used) :
    as.length + s'.app.work ≤ s.app.work ∧
      ((∀ a s'', a.service = true → step s' a ≠ some s'') ↔ s'.Quiet ∧ s'.app.mainQueue = []) := by
  refine ⟨hr.length_add_le fun s a s' ha hs => service_work ha (act_of_step hs), ?_⟩
  have hc' : s'.app.crashed = false :=
    hr.inv (fun _ _ _ hI ha hs => (crashed_service ha (act_of_step hs)).trans hI) hc
  constructor
  · intro hstuck
    by_contra h
    obtain ⟨a, s'', ha, hs⟩ := exists_service hc' hu h
    exact hstuck a s'' ha hs
  · rintro ⟨hn, hq⟩ a s'' ha hs
    exact no_service hn hq ha (act_of_step hs)

/-! ## The loader at rest -/

/-- No operation ends early. -/
def Finishes (s : State) (a : Action) : Prop := s.endsEarly a = false

instance (s : State) : DecidablePred (Finishes s) :=
  fun a => inferInstanceAs (Decidable (s.endsEarly a = false))

/-- A loader stands for an operation that is pending. -/
def Desk.Pending (d : Desk) : Prop := d.hud ≠ none → ∃ o, ⟨o, true⟩ ∈ d.tasks

theorem Turn.pending {s s' : State} {a : Action} (h : Turn s s' a) (ha : Finishes s a)
    (hP : s.app.desk.Pending) :
    s'.app.desk.Pending := by
  cases h with
  | idle h => exact h ▸ hP
  | presented _ _ _ _ h | left h | uploading _ _ _ _ _ h => rw [h]; exact hP
  | @saved title content uid url sheet w hm hacc _ _ h =>
    have hacc' : (!(decide (title = some "") || decide (content = some ""))) = true := by simpa using hacc
    have hurl : url = true := by simpa [Finishes, State.endsEarly, hacc'] using ha
    rw [h, if_pos hurl, Multiset.singleton_add]
    exact fun _ => ⟨.add w, by simp⟩
  | deleted screen hm h =>
    rw [h]
    exact fun _ => ⟨.delete screen, by simp⟩
  | ended t tasks ht hend h =>
    rw [h]
    intro hhud
    obtain ⟨o, ho⟩ := hP hhud
    rw [ht] at ho
    rcases Multiset.mem_cons.mp ho with rfl | ho
    · exact absurd (hend rfl) (by rw [show s.endsEarly a = false from ha]; simp)
    · exact ⟨o, ho⟩
  | notFound _ _ _ _ _ _ h | completed _ _ _ h | popped _ _ _ _ h =>
    rw [h]
    exact fun hhud => absurd rfl hhud

/-- Where no operation ends early, the loader is shown only while a closure of some operation
is pending, however many operations share it, and not at rest. -/
theorem loader_rests {s : State} (h : Reachable step Start Finishes s) :
    (∀ v, s.app.loader = some v → ∃ p ∈ s.app.net, ∃ o, p.call.task = some ⟨o, true⟩) ∧
      (s.Quiet → s.app.loader = none) := by
  have hP : s.app.desk.Pending := by
    refine h.inv (I := fun s => s.app.desk.Pending) (fun s hs => ?_) fun s a s' hr hI ha hs => ?_
    · rw [hs.launch]
      exact fun hhud => absurd rfl hhud
    · exact (Reach.turn (hr.mono fun _ _ _ => trivial) hs).pending ha hI
  have pending {v : View} (hv : s.app.loader = some v) : ∃ p ∈ s.app.net,
    ∃ o, p.call.task = some ⟨o, true⟩ := by
    have hh : s.app.hud = some v := (Option.filter_eq_some_iff.mp hv).1
    obtain ⟨o, ho⟩ := hP (by rw [show s.app.desk.hud = some v from hh]; simp)
    obtain ⟨p, hp, hpt⟩ := App.mem_tasks.mp ho
    exact ⟨p, hp, o, hpt⟩
  refine ⟨fun v => pending, fun hq => ?_⟩
  by_contra hn
  obtain ⟨v, hv⟩ := Option.ne_none_iff_exists'.mp hn
  obtain ⟨p, hp, -⟩ := pending hv
  rw [show s.app.net = [] from hq] at hp
  cases hp

/-! ## Runs -/

theorem loader_rests_crowded : Reachable step Start Finishes crowded ∧
    (∀ v, crowded.app.loader = some v → ∃ p ∈ crowded.app.net, ∃ o, p.call.task = some ⟨o, true⟩) ∧
    (crowded.Quiet → crowded.app.loader = none) := by
  have h : Reachable step Start Finishes crowded :=
    ⟨_, crowdedActions, start_empty _, runs_of_guarded (Option.some_get crowdedActions_run).symm
      (by decide +kernel)⟩
  exact ⟨h, loader_rests h⟩

/-- A word is saved. -/
def saving : List Action := [.writing, .saveBoard (some "cat") (some "a word") uuid₁ true]

/-- What the services do then. -/
def settling : List Action :=
  [.searched 1 found uuid₂, .serve 2 (.success "https://firebasestorage.googleapis.com/1"),
    .answer 2 "", .serve 3 (.success ""),
    .answer 3 "2022-10-01T09:00:00Z", .serve 4 (.success ""), .serve 5 (.success ""),
    .answer 5 "", .answer 4 ""]

theorem saving_run : (run step (State.empty (some phone)) saving).isSome = true := by decide +kernel

def catSaved : State := (run step (State.empty (some phone)) saving).get saving_run

theorem settling_end :
    catSaved.app.crashed = false ∧ ∃ s, Runs step (fun _ a => a.service = true) catSaved settling s ∧
    uuid₃.uuidString ∉ s.used :=
  ⟨by decide +kernel, exists_runs (by decide +kernel)⟩

theorem comes_to_rest_cat : ∃ s, Runs step (fun _ a => a.service = true) catSaved settling s ∧
    settling.length + s.app.work ≤ catSaved.app.work ∧
    ((∀ a s', a.service = true → step s a ≠ some s') ↔ s.Quiet ∧ s.app.mainQueue = []) := by
  obtain ⟨hc, s, hr, hu⟩ := settling_end
  exact ⟨s, hr, comes_to_rest hc hr hu⟩

/-- A comment is saved and listed, and then an older answer arrives. -/
def shrinkActions : List Action :=
  oneWord ++ [.didSelectRow 0, .serve 7 (.success ""), .addComment,
    .saveComment (some "meow") "2022-10-01T10:00:00Z" "c1",
    .serve 9 (.success ""), .answer 9 "", .serve 10 (.success ""), .answer 10 "", .mainQueue, .answer 7 ""]

theorem shrinkActions_run : (run step (State.empty (some phone)) shrinkActions).isSome = true := by
  decide +kernel

def shrunk : State := (run step (State.empty (some phone)) shrinkActions).get shrinkActions_run

theorem crashes_shrunk :
    Reach shrunk ∧ ∃ s', step shrunk (.commentRow 6 0 false) = some s' ∧ (s'.app.crashed = true ↔
    ∃ screen row select d, Action.commentRow 6 0 false = .commentRow screen row select ∧
      shrunk.app.details screen = some d ∧ row < d.rows ∧ d.arr.length ≤ row) := by
  have h : Reach shrunk := reach_of_run (start_empty _) shrinkActions_run
  have hs : (step shrunk (.commentRow 6 0 false)).isSome = true := by decide +kernel
  exact ⟨h, _, Option.some_get hs |>.symm, crashes_iff h (Option.some_get hs).symm⟩

end BlindBoard
