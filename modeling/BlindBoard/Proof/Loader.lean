import BlindBoard.Proof.Sheets

/-!
# The loader and the operation it stands for

The one loader is shared by all operations without counting: a `show` is ignored
while another screen has it, and any completion takes it away, so a screen can be
without a loader while its operation is outstanding (`loader_elsewhere`). Where an
operation starts only while no other is pending, and no operation ends early, the
loader is over a screen on display exactly while an operation started from it is
outstanding (`loader_over`).
-/

namespace BlindBoard

open Lib

/-- The view from which an operation was started. -/
def Op.StartedFrom (log : List Event) (v : View) : Op → Prop
  | .add w => ∃ n, .saved n w ∈ log ∧ v = .addWord n
  | .delete screen => v = .detail screen

/-- The screen of an operation is on display. -/
def App.OnDisplay (a : App) : View → Prop
  | .board => False
  | .addWord n => a.modal = some (.addWord n)
  | .detail n => a.pushed = some n

/-- The step starts an operation. -/
def Action.starts : Action → Bool
  | .saveBoard title content _ _ => !(title = some "" || content = some "")
  | .confirmDelete => true
  | _ => false

/-- No operation ends early, and one starts only while no other is pending. -/
def OneAtATime (s : State) (a : Action) : Prop :=
  s.endsEarly a = false ∧ (a.starts = true → ∀ t ∈ s.app.tasks, t.awaited = false)

instance (s : State) : DecidablePred (OneAtATime s) := fun a =>
  inferInstanceAs
    (Decidable (s.endsEarly a = false ∧ (a.starts = true → ∀ t ∈ s.app.tasks, t.awaited = false)))

theorem Op.StartedFrom.mono {log log' : List Event} (h : log ⊆ log') {v : View}
    {o : Op} (hv : o.StartedFrom log v) :
    o.StartedFrom log' v := by
  cases o with
  | add w =>
    obtain ⟨n, hn, rfl⟩ := hv
    exact ⟨n, h hn, rfl⟩
  | delete screen => exact hv

/-- The loader stands for the one operation that is pending. -/
structure Desk.Single (d : Desk) : Prop where
  idle : (∀ t ∈ d.tasks, t.awaited = false) → d.hud = none
  busy : ∀ t tasks, d.tasks = t ::ₘ tasks → t.awaited = true →
    (∀ t' ∈ tasks, t'.awaited = false) ∧ ∃ v, d.hud = some v ∧ t.op.StartedFrom d.notes v

namespace Desk.Single

variable {d : Desk} {modal : Option Modal} {hud : Option View} {tasks : Multiset Task} {notes : List Event}

/-- The pending operation stays the same. -/
theorem of_awaited (h : d.Single) (hh : hud = d.hud) (hn : d.notes ⊆ notes)
    (ht : d.tasks = tasks ∨ ∃ o, d.tasks = ⟨o, false⟩ ::ₘ tasks) : Single ⟨modal, hud, tasks, notes⟩ where
  idle hi := hh.trans <| h.idle fun t htm => by
    rcases ht with ht | ⟨o, ht⟩ <;> rw [ht] at htm
    · exact hi t htm
    · rcases Multiset.mem_cons.mp htm with rfl | htm
      · rfl
      · exact hi t htm
  busy t ts (hts : tasks = t ::ₘ ts) ha := by
    have hd : ∃ ts', d.tasks = t ::ₘ ts' ∧ ts ⊆ ts' := by
      rcases ht with ht | ⟨o, ht⟩
      · exact ⟨ts, ht.trans hts, fun _ h => h⟩
      · refine ⟨⟨o, false⟩ ::ₘ ts, ?_, Multiset.subset_cons _ _⟩
        rw [ht, hts, Multiset.cons_swap]
    obtain ⟨ts', hd, hsub⟩ := hd
    obtain ⟨hr, v, hv, hf⟩ := h.busy t ts' hd ha
    exact ⟨fun t' ht' => hr t' (hsub ht'), v, hh.trans hv, hf.mono hn⟩

/-- The pending operation is over. -/
theorem finished (ht : ∀ t ∈ tasks, t.awaited = false) : Single ⟨modal, none, tasks, notes⟩ where
  idle _ := rfl
  busy t ts hts ha := by
    have hmem : t ∈ tasks := (show tasks = t ::ₘ ts from hts) ▸ Multiset.mem_cons_self _ _
    rw [ht t hmem] at ha
    cases ha

/-- An operation starts. -/
theorem begin {o : Op} {v : View} (ht : ∀ t ∈ tasks, t.awaited = false) (hf : o.StartedFrom notes v) :
    Single ⟨modal, some v, ⟨o, true⟩ ::ₘ tasks, notes⟩ where
  idle hi := absurd (hi _ (Multiset.mem_cons_self _ _)) (by simp)
  busy t ts hts ha := by
    rcases Multiset.cons_eq_cons.mp hts with ⟨rfl, rfl⟩ | ⟨-, ts', rfl, rfl⟩
    · exact ⟨ht, v, rfl, hf⟩
    · rw [ht t (Multiset.mem_cons_self _ _)] at ha
      cases ha

end Desk.Single

/-- Where no loader is shown, one is shown. -/
theorem App.showLoader_none {a : App} (h : a.hud = none) (v : View) : (a.showLoader v true).hud = some v := by
  simp [showLoader, loader, h]

theorem Turn.single {s s' : State} {a : Action} (h : Turn s s' a) (ha : OneAtATime s a)
    (hS : s.app.desk.Single) :
    s'.app.desk.Single := by
  -- an operation that awaits an answer is the only one that does
  have only {t : Task} {tasks : Multiset Task} (ht : s.app.desk.tasks = t ::ₘ tasks) (hw : t.awaited = true) :
      ∀ t' ∈ tasks, t'.awaited = false := (hS.busy t tasks ht hw).1
  cases h with
  | idle h => exact h ▸ hS
  | presented m _ _ _ h => rw [h]; exact hS.of_awaited rfl (List.Subset.refl _) (.inl rfl)
  | left h => rw [h]; exact hS.of_awaited rfl (List.Subset.refl _) (.inl rfl)
  | @saved title content uid url sheet w hm hacc _ _ h =>
    have hacc' : (!(decide (title = some "") || decide (content = some ""))) = true := by simpa using hacc
    have hurl : url = true := by simpa [State.endsEarly, hacc'] using ha.1
    have hidle := ha.2 hacc'
    rw [h, App.showLoader_none (hS.idle hidle), if_pos hurl, Multiset.singleton_add]
    exact .begin hidle ⟨sheet, by simp, rfl⟩
  | deleted screen hm h =>
    have hidle := ha.2 rfl
    rw [h, App.showLoader_none (hS.idle hidle)]
    refine .begin (fun t ht => ?_) rfl
    rcases Multiset.mem_cons.mp ht with rfl | ht
    · rfl
    · exact hidle t ht
  | ended t tasks ht hend h =>
    rw [h]
    obtain ⟨o, awaited⟩ := t
    cases awaited with
    | true => exact absurd ha.1 (by simp [hend rfl])
    | false => exact hS.of_awaited rfl (List.Subset.refl _) (.inr ⟨o, ht⟩)
  | notFound _ w tasks _ _ ht h => rw [h]; exact .finished (only ht rfl)
  | uploading t w f data ht h => rw [h]; exact hS.of_awaited rfl (List.subset_append_left _ _) (.inl rfl)
  | completed w tasks ht h =>
    rw [h]
    refine .finished fun t htm => ?_
    rcases Multiset.mem_cons.mp htm with rfl | htm
    · rfl
    · exact only ht rfl t htm
  | popped screen tasks ht _ h => rw [h]; exact .finished (only ht rfl)

/-! ## Requests that nothing awaits -/

theorem App.mem_tasks {a : App} {t : Task} : t ∈ a.tasks ↔ ∃ p ∈ a.net, p.call.task = some t := by
  simp [tasks]

/-- An add has one call in flight. -/
theorem Moved.add_once {s : State} (h : Moved s) {w : Word} {b b' : Bool} {tasks : Multiset Task}
    (ht : s.app.tasks = ⟨.add w, b⟩ ::ₘ tasks) : ⟨.add w, b'⟩ ∉ tasks := by
  intro hf
  have word {call : Call} {b : Bool} (hc : call.task = some ⟨.add w, b⟩) : call.word = some w := by
    cases call <;> simp_all [Call.task, Call.word]
  obtain ⟨p, hp, hpt⟩ := App.mem_tasks.mp (ht ▸ Multiset.mem_cons_self _ _)
  have hrest := (App.tasks_take_some h.distinct hp hpt).symm.trans ht
  rw [← (Multiset.cons_inj_right _).mp hrest] at hf
  obtain ⟨q, hq, hqt⟩ := App.mem_tasks.mp hf
  obtain ⟨hq, hne⟩ := List.mem_filter.mp hq
  obtain rfl := h.pipeline.single p hp q hq w w (word hpt) (word hqt) rfl
  simp at hne

theorem Moved.delete_task {s : State} (h : Moved s) {screen : Nat} {b : Bool}
    (ht : ⟨.delete screen, b⟩ ∈ s.app.tasks) :
    screen < s.app.next := by
  obtain ⟨p, hp, hpt⟩ := App.mem_tasks.mp ht
  have hA := h.screens.calls p hp
  obtain ⟨t, call, answer⟩ := p
  cases call <;> cases hpt <;> obtain ⟨w, ⟨d, hd, -⟩, -⟩ := hA rfl <;> exact h.screens.below _ d hd

/-- Only a new screen comes to the navigation stack. -/
theorem act_pushed {s s' : State} {a : Action} (hS : Screens s) (ht : Tickets s) (h : act s a = some s') :
    s.app.next ≤ s'.app.next ∧ ∀ n, s'.app.pushed = some n → s.app.pushed = some n ∨ s.app.next ≤ n := by
  by_cases ha : a.about s .board
  · have ha' : ¬ a.about s (.comments 0) := by
      cases a with
      | serve | answer =>
        obtain ⟨p, hf, hc⟩ := ha
        rintro ⟨p', hf', hc'⟩
        cases hf.symm.trans hf'
        cases hc.symm.trans hc'
      | _ => exact ha.elim
    exact ⟨(act_keeps hS ht h ha').next, (act_keeps hS ht h ha').pushed⟩
  · exact ⟨(act_keeps hS ht h ha).next, (act_keeps hS ht h ha).pushed⟩

section Turn

variable {s s' : State} {a : Action}

theorem Turn.modal (h : Turn s s' a) {n : Nat} (hm : s'.app.desk.modal = some (.addWord n)) :
    s.app.desk.modal = some (.addWord n) ∨ n = s.app.next ∧ n < s'.app.next := by
  cases h with
  | presented m _ _ hn h =>
    rw [h] at hm
    cases hm
    exact .inr (hn n rfl)
  | idle h | left h | saved _ _ _ _ _ _ h | deleted _ _ h | ended _ _ _ _ h
  | notFound _ _ _ _ _ _ h | uploading _ _ _ _ _ h | completed _ _ _ h | popped _ _ _ _ h =>
    rw [h] at hm
    first | exact .inl hm | cases hm

/-- A saved word was saved before, or on the sheet that is presented. -/
theorem Turn.saved_notes (h : Turn s s' a) {n : Nat} {w : Word} (hn : .saved n w ∈ s'.app.desk.notes) :
    .saved n w ∈ s.app.desk.notes ∨
      s.app.desk.modal = some (.addWord n) ∧
      (s.endsEarly a = false → ⟨.add w, true⟩ ∈ s'.app.desk.tasks) := by
  cases h with
  | @saved title content uid url sheet w' hm hacc _ _ h =>
    rw [h] at hn ⊢
    rcases List.mem_append.mp hn with hn | hn
    · exact .inl hn
    · cases List.mem_singleton.mp hn
      refine .inr ⟨hm, fun he => ?_⟩
      have hacc' : (!(decide (title = some "") || decide (content = some ""))) = true := by simpa using hacc
      have hurl : url = true := by simpa [State.endsEarly, hacc'] using he
      simp [hurl]
  | uploading _ _ _ _ _ h | completed _ _ _ h =>
    rw [h] at hn
    exact .inl (by simpa using hn)
  | idle h | presented _ _ _ _ h | left h | deleted _ _ h | ended _ _ _ _ h
  | notFound _ _ _ _ _ _ h | popped _ _ _ _ h =>
    rw [h] at hn
    exact .inl hn

/-- A request that nothing awaits was in flight, is sent with one that is awaited,
or completes an add. -/
theorem Turn.unawaited (h : Turn s s' a) {o : Op} (ho : ⟨o, false⟩ ∈ s'.app.desk.tasks) :
    ⟨o, false⟩ ∈ s.app.desk.tasks ∨ ⟨o, true⟩ ∈ s'.app.desk.tasks ∨ (∃ w, o = .add w) ∧
    s'.app.desk.modal = none := by
  cases h with
  | @saved title content uid url sheet w hm hacc _ _ h =>
    rw [h] at ho
    rcases Multiset.mem_add.mp ho with ho | ho
    · split at ho <;> simp at ho
    · exact .inl ho
  | deleted screen _ h =>
    rw [h] at ho ⊢
    simp only [Multiset.mem_cons, Task.mk.injEq, Bool.false_eq_true, and_false, and_true, false_or] at ho
    rcases ho with rfl | ho
    · exact .inr (.inl (by simp))
    · exact .inl ho
  | completed w _ ht h =>
    rw [h] at ho ⊢
    rcases Multiset.mem_cons.mp ho with ho | ho
    · cases ho
      exact .inr (.inr ⟨⟨w, rfl⟩, rfl⟩)
    · exact .inl (ht ▸ Multiset.mem_cons_of_mem ho)
  | ended _ _ ht _ h | notFound _ _ _ _ _ ht h | popped _ _ ht _ h =>
    rw [h] at ho
    exact .inl (ht ▸ Multiset.mem_cons_of_mem ho)
  | idle h | presented _ _ _ _ h | left h | uploading _ _ _ _ _ h =>
    rw [h] at ho
    exact .inl ho

/-- A pending operation stays pending, or is over: an add, or a deletion whose
screen is not on the navigation stack any more. -/
theorem Turn.awaited (h : Turn s s' a) (ha : s.endsEarly a = false) {o : Op}
    (ho : ⟨o, true⟩ ∈ s.app.desk.tasks) :
    ⟨o, true⟩ ∈ s'.app.desk.tasks ∨ (∃ w, o = .add w) ∨ ∃ n, o = .delete n ∧ s'.app.pushed ≠ some n := by
  cases h with
  | saved _ _ _ _ _ _ h =>
    rw [h]
    exact .inl (Multiset.mem_add.mpr (.inr ho))
  | deleted _ _ h =>
    rw [h]
    exact .inl (Multiset.mem_cons_of_mem (Multiset.mem_cons_of_mem ho))
  | ended t _ ht hend h =>
    rw [h]
    rcases Multiset.mem_cons.mp (ht ▸ ho) with rfl | ho
    · exact absurd ha (by simp [hend rfl])
    · exact .inl ho
  | notFound _ w _ _ _ ht h =>
    rw [h]
    rcases Multiset.mem_cons.mp (ht ▸ ho) with ho | ho
    · cases ho
      exact .inr (.inl ⟨w, rfl⟩)
    · exact .inl ho
  | completed w _ ht h =>
    rw [h]
    rcases Multiset.mem_cons.mp (ht ▸ ho) with ho | ho
    · cases ho
      exact .inr (.inl ⟨w, rfl⟩)
    · exact .inl (Multiset.mem_cons_of_mem ho)
  | popped screen _ ht hp h =>
    rw [h]
    rcases Multiset.mem_cons.mp (ht ▸ ho) with ho | ho
    · cases ho
      exact .inr (.inr ⟨screen, rfl, hp⟩)
    · exact .inl ho
  | idle h | presented _ _ _ _ h | left h | uploading _ _ _ _ _ h =>
    rw [h]
    exact .inl ho

end Turn

/-- Sheets are numbered in the order in which they are presented. -/
structure Numbered (s : State) : Prop where
  saved : ∀ n w, .saved n w ∈ s.app.desk.notes → n < s.app.next
  sheet : ∀ n, s.app.desk.modal = some (.addWord n) → n < s.app.next

theorem Numbered.start {s : State} (h : Start s) : Numbered s := by
  constructor <;> rw [h.launch] <;> simp [App.desk, App.launch]

theorem Numbered.turn {s s' : State} {a : Action} (hN : Numbered s) (h : Turn s s' a)
    (hn : s.app.next ≤ s'.app.next) :
    Numbered s' where
  saved n w hs := by
    rcases h.saved_notes hs with hs | ⟨hm, -⟩
    · exact (hN.saved n w hs).trans_le hn
    · exact (hN.sheet n hm).trans_le hn
  sheet n hm := by
    rcases h.modal hm with hm | ⟨-, hlt⟩
    · exact (hN.sheet n hm).trans_le hn
    · exact hlt

theorem Reach.numbered {s : State} (h : Reach s) : Numbered s := by
  refine h.inv (I := Numbered) (fun _ => Numbered.start) fun s a s' hr hN _ hs => ?_
  have hm := Reach.moved hr
  exact hN.turn (Reach.turn hr hs) (act_pushed hm.screens hm.tickets (act_of_step hs)).1

/-- Where a request is in flight that nothing awaits, its operation is still
pending, or its screen is not on display any more. -/
def Gone (s : State) : Prop := ∀ o, ⟨o, false⟩ ∈ s.app.desk.tasks →
  ⟨o, true⟩ ∈ s.app.desk.tasks ∨ ∀ v, o.StartedFrom s.app.desk.notes v → ¬ s.app.OnDisplay v

theorem Gone.step {s s' : State} {a : Action} (hG : Gone s) (hr : Reach s) (ha : s.endsEarly a = false)
    (h : step s a = some s') : Gone s' := by
  have hm := Reach.moved hr
  have hN := Reach.numbered hr
  have ht := Reach.turn hr h
  have hpushed := (act_pushed hm.screens hm.tickets (act_of_step h)).2
  intro o ho
  rcases ht.unawaited ho with ho | ho | ⟨⟨w, rfl⟩, hmod⟩
  · rcases hG o ho with hw | hoff
    · rcases ht.awaited ha hw with hw | ⟨w, rfl⟩ | ⟨n, rfl, hp⟩
      · exact .inl hw
      · obtain ⟨tasks, ht⟩ := Multiset.exists_cons_of_mem hw
        rcases Multiset.mem_cons.mp (ht ▸ ho) with ho | ho
        · cases ho
        · exact absurd ho (hm.add_once ht)
      · refine .inr ?_
        rintro _ rfl
        exact hp
    · by_cases hw : ⟨o, true⟩ ∈ s'.app.desk.tasks
      · exact .inl hw
      · refine .inr fun v hv hon => ?_
        cases o with
        | add w =>
          obtain ⟨n, hn, rfl⟩ := hv
          rcases ht.saved_notes hn with hn | ⟨-, hnew⟩
          · rcases ht.modal hon with hon | ⟨rfl, -⟩
            · exact hoff _ ⟨n, hn, rfl⟩ hon
            · exact lt_irrefl _ (hN.saved _ w hn)
          · exact hw (hnew ha)
        | delete n =>
          obtain rfl := hv
          rcases hpushed n hon with hon | hn
          · exact hoff _ rfl hon
          · exact (hm.delete_task ho).not_ge hn
  · exact .inl ho
  · refine .inr ?_
    rintro _ ⟨n, -, rfl⟩ hon
    cases hmod.symm.trans hon

theorem App.OnDisplay.viewAlive {a : App} {v : View} (h : a.OnDisplay v) : a.viewAlive v = true := by
  cases v with
  | board => rfl
  | addWord n =>
    have hm : a.modal = some (.addWord n) := h
    simp [App.viewAlive, hm]
  | detail n =>
    have hp : a.pushed = some n := h
    simp [App.viewAlive, App.alive, hp]

/-- The view an operation was started from is the only one. -/
theorem Moved.startedFrom_unique {s : State} (h : Moved s) {o : Op} {v v' : View}
    (hv : o.StartedFrom s.app.log v)
    (hv' : o.StartedFrom s.app.log v') : v = v' := by
  cases o with
  | add w =>
    obtain ⟨n, hn, rfl⟩ := hv
    obtain ⟨n', hn', rfl⟩ := hv'
    obtain ⟨e, he, rfl, hw⟩ := (h.agrees.saved n w).mp hn
    obtain ⟨e', he', rfl, hw'⟩ := (h.agrees.saved n' w).mp hn'
    rw [Spec.Board.eq_of_uid h.agrees.uids he he' (congrArg Word.uid (hw.trans hw'.symm))]
  | delete screen => exact hv.trans hv'.symm

/-- Where operations start one at a time and none ends early, the loader is over a
screen on display if an operation started from it has a request or callback
outstanding, and it is over no screen but one whose operation has a callback
outstanding. -/
theorem loader_over {s : State} (h : Reachable step Start OneAtATime s) :
    (∀ p ∈ s.app.net, ∀ t, p.call.task = some t → ∀ v, t.op.StartedFrom s.app.log v → s.app.OnDisplay v →
      s.app.loader = some v) ∧
    ∀ v, s.app.loader = some v → ∃ p ∈ s.app.net, ∃ o, p.call.task = some ⟨o, true⟩ ∧
    o.StartedFrom s.app.log v := by
  have hr : Reach s := h.mono fun _ _ _ => trivial
  have hm := Reach.moved hr
  have log {v : View} {o : Op} : o.StartedFrom s.app.desk.notes v ↔ o.StartedFrom s.app.log v := by
    cases o <;> simp [Op.StartedFrom, App.desk, Event.noted]
  obtain ⟨hS, hG⟩ : s.app.desk.Single ∧ Gone s := by
    refine h.inv (I := fun s => s.app.desk.Single ∧ Gone s) (fun s hs => ?_) fun s a s' hr hI ha hs => ?_
    · rw [Gone, hs.launch]
      exact ⟨.finished fun t ht => by simp [App.launch, App.tasks] at ht,
        by simp [App.desk, App.launch, App.tasks]⟩
    · have hr : Reach s := hr.mono fun _ _ _ => trivial
      exact ⟨(Reach.turn hr hs).single ha hI.1, hI.2.step hr ha.1 hs⟩
  -- the loader stands for the pending operation
  have pending {o : Op} (ho : ⟨o, true⟩ ∈ s.app.desk.tasks) : ∃ v,
    s.app.hud = some v ∧ o.StartedFrom s.app.log v := by
    obtain ⟨tasks, ht⟩ := Multiset.exists_cons_of_mem ho
    obtain ⟨v, hv, hf⟩ := (hS.busy _ tasks ht rfl).2
    exact ⟨v, hv, log.mp hf⟩
  constructor
  · intro p hp t hpt v hf hon
    have ht : t ∈ s.app.tasks := App.mem_tasks.mpr ⟨p, hp, hpt⟩
    have hw : ⟨t.op, true⟩ ∈ s.app.desk.tasks := by
      obtain ⟨o, awaited⟩ := t
      cases awaited with
      | true => exact ht
      | false => exact (hG o ht).resolve_right fun hoff => hoff v (log.mpr hf) hon
    obtain ⟨v', hv', hf'⟩ := pending hw
    rw [hm.startedFrom_unique hf hf'] at hon ⊢
    simp [App.loader, hv', hon.viewAlive]
  · intro v hv
    have hh : s.app.hud = some v := by
      rw [App.loader, Option.filter_eq_some_iff] at hv
      exact hv.1
    by_cases hi : ∀ t ∈ s.app.desk.tasks, t.awaited = false
    · cases (hS.idle hi).symm.trans hh
    · push Not at hi
      obtain ⟨⟨o, awaited⟩, ht, ha⟩ := hi
      obtain rfl : awaited = true := by simpa using ha
      obtain ⟨p, hp, hpt⟩ := App.mem_tasks.mp ht
      obtain ⟨v', hv', hf⟩ := pending ht
      cases hh.symm.trans hv'
      exact ⟨p, hp, o, hpt, hf⟩

/-! ## A loader that another screen has -/

/-- A deletion is confirmed, its screen left while the deletion is pending, and
another word saved. -/
def crowdedActions : List Action :=
  oneWord ++ [.didSelectRow 0, .deleteWord, .confirmDelete, .back, .writing,
    .saveBoard (some "dog") (some "a word") uuid₃ true]

def dog : Word := ⟨"dog", "a word", uuid₃.uuidString, "", ""⟩

/-- The save of sheet 10 is outstanding, and the loader is over screen 6. -/
theorem crowded_end : ∃ s, Runs step anyStep (State.empty (some phone)) crowdedActions s ∧
    s.app.modal = some (.addWord 10) ∧ ⟨11, .dataTask dog, none⟩ ∈ s.app.net ∧ .saved 10 dog ∈ s.app.log ∧
    s.app.loader = some (.detail 6) :=
  exists_runs (P := fun _ => _ ∧ _ ∧ _ ∧ _) (by decide +kernel)

theorem crowdedActions_run : (run step (State.empty (some phone)) crowdedActions).isSome = true :=
  isSome_of_exists_runs crowded_end

def crowded : State := (run step (State.empty (some phone)) crowdedActions).get crowdedActions_run

theorem crowded_facts : crowded.app.modal = some (.addWord 10) ∧ ⟨11, .dataTask dog, none⟩ ∈ crowded.app.net ∧
    .saved 10 dog ∈ crowded.app.log ∧ crowded.app.loader = some (.detail 6) := by
  rw [crowded]
  exact (get_of_exists_runs crowded_end crowdedActions_run).2

theorem loader_elsewhere : ¬ ∀ s, Reach s →
    (∀ p ∈ s.app.net, ∀ t, p.call.task = some t → ∀ v, t.op.StartedFrom s.app.log v → s.app.OnDisplay v →
      s.app.loader = some v) ∧
    ∀ v, s.app.loader = some v → ∃ p ∈ s.app.net, ∃ o, p.call.task = some ⟨o, true⟩ ∧
    o.StartedFrom s.app.log v := by
  intro h
  obtain ⟨hmod, hp, hs, hl⟩ := crowded_facts
  have hc := (h crowded (reach_of_run (start_empty _) crowdedActions_run)).1 _ hp _ rfl _ ⟨10, hs, rfl⟩ hmod
  cases hl.symm.trans hc

/-- A word is added and listed, and another one saved, whose search is outstanding. -/
def dogActions : List Action := oneWord ++ [.writing, .saveBoard (some "dog") (some "a word") uuid₃ true]

theorem dogSaved_end : ∃ s, Runs step OneAtATime (State.empty (some phone)) dogActions s ∧
    ⟨7, .dataTask dog, none⟩ ∈ s.app.net ∧ .saved 6 dog ∈ s.app.log ∧ s.app.modal = some (.addWord 6) :=
  exists_runs (P := fun _ => _ ∧ _ ∧ _) (by decide +kernel)

/-- The loader is over the sheet of the save, and there is a pending operation that it stands for. -/
theorem loader_over_dog : ∃ s, Reachable step Start OneAtATime s ∧ s.app.OnDisplay (.addWord 6) ∧
    s.app.loader = some (.addWord 6) ∧
    ∃ p ∈ s.app.net, ∃ o, p.call.task = some ⟨o, true⟩ ∧ o.StartedFrom s.app.log (.addWord 6) := by
  obtain ⟨s, hr, hp, hs, hm⟩ := dogSaved_end
  have h : Reachable step Start OneAtATime s := ⟨_, dogActions, start_empty _, hr⟩
  obtain ⟨hover, hstands⟩ := loader_over h
  have hl : s.app.loader = some (.addWord 6) := hover _ hp _ rfl _ ⟨6, hs, rfl⟩ hm
  exact ⟨s, h, hm, hl, hstands _ hl⟩

end BlindBoard
