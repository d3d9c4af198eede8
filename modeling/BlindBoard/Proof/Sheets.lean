import BlindBoard.Proof.Desk

/-!
# Which sheet an add closes

The success callback of an add dismisses whatever is presented, so it can close
the next compose sheet or a comment sheet (`other_sheet_closed`). Where nothing is
presented while an add is pending, it closes its own sheet or none
(`own_sheet_closed`).
-/

namespace BlindBoard

open Lib

/-- The success callback of an add is still to come. -/
def Task.adding (t : Task) : Bool := match t.op with
  | .add _ => t.awaited
  | .delete _ => false

/-- Nothing is presented while an add is pending. -/
def PresentsAlone (s : State) (a : Action) : Prop := a.presents = true → ∀ t ∈ s.app.tasks, t.adding = false

instance (s : State) : DecidablePred (PresentsAlone s) := fun a =>
  inferInstanceAs (Decidable (a.presents = true → ∀ t ∈ s.app.tasks, t.adding = false))

/-- What a pending add would dismiss is its own sheet, and so was what was dismissed. -/
structure Desk.Own (d : Desk) : Prop where
  pending : ∀ w, ⟨.add w, true⟩ ∈ d.tasks → ∃ n, .saved n w ∈ d.notes ∧ ∀ m, d.modal = some m → m = .addWord n
  closed : ∀ w m, .closed w (some m) ∈ d.notes → ∃ n, .saved n w ∈ d.notes ∧ m = .addWord n

namespace Desk.Own

variable {d : Desk}

/-- Operations go on or end, and nothing else is presented. -/
theorem sub (h : d.Own) {modal : Option Modal} {hud : Option View} {tasks : Multiset Task}
    {notes : List Event}
    (ht : ∀ w, ⟨.add w, true⟩ ∈ tasks → ⟨.add w, true⟩ ∈ d.tasks) (hm : modal = d.modal ∨ modal = none)
    (hn : d.notes ⊆ notes) (hc : ∀ w m, .closed w (some m) ∈ notes → .closed w (some m) ∈ d.notes) :
    Own ⟨modal, hud, tasks, notes⟩ where
  pending w hw := by
    obtain ⟨n, hs, hp⟩ := h.pending w (ht w hw)
    refine ⟨n, hn hs, fun m (hmm : modal = some m) => ?_⟩
    rcases hm with hm | hm <;> rw [hm] at hmm
    · exact hp m hmm
    · cases hmm
  closed w m hcm := by
    obtain ⟨n, hs, hmn⟩ := h.closed w m (hc w m hcm)
    exact ⟨n, hn hs, hmn⟩

end Desk.Own

theorem Turn.own {s s' : State} {a : Action} (h : Turn s s' a) (ha : PresentsAlone s a)
    (hO : s.app.desk.Own) :
    s'.app.desk.Own := by
  cases h with
  | idle h => exact h ▸ hO
  | presented m hp hm hn h =>
    rw [h]
    refine ⟨fun w hw => ?_, hO.closed⟩
    exact absurd (ha hp _ hw) (by simp [Task.adding])
  | left h =>
    rw [h]
    exact hO.sub (fun _ hw => hw) (.inr rfl) (List.Subset.refl _) fun _ _ hc => hc
  | saved sheet w hm _ _ _ h =>
    rw [h]
    refine ⟨fun v hv => ?_, fun v m hc => ?_⟩
    · by_cases hvw : v = w
      · subst hvw
        refine ⟨sheet, by simp, fun m hm' => ?_⟩
        exact (Option.some.inj (hm.symm.trans hm')).symm
      · have hv : ⟨.add v, true⟩ ∈ s.app.desk.tasks := by
          rcases Multiset.mem_add.mp hv with hv | hv
          · split at hv <;> simp_all
          · exact hv
        obtain ⟨n, hs, hp⟩ := hO.pending v hv
        exact ⟨n, List.mem_append_left _ hs, hp⟩
    · obtain ⟨n, hs, hmn⟩ := hO.closed v m (by simpa using hc)
      exact ⟨n, List.mem_append_left _ hs, hmn⟩
  | deleted screen hm h =>
    rw [h]
    exact hO.sub (fun w hw => by simpa using hw) (.inr rfl) (List.Subset.refl _) fun _ _ hc => hc
  | ended t tasks ht _ h | notFound _ w tasks _ _ ht h | popped screen tasks ht _ h =>
    rw [h]
    refine hO.sub (fun w hw => ?_) (.inl rfl) (List.Subset.refl _) fun _ _ hc => hc
    exact ht ▸ Multiset.mem_cons_of_mem hw
  | uploading t w f data ht h =>
    rw [h]
    exact hO.sub (fun _ hw => hw) (.inl rfl) (List.subset_append_left _ _) fun _ _ hc => by simpa using hc
  | completed w tasks ht h =>
    rw [h]
    obtain ⟨n, hs, hp⟩ := hO.pending w (ht ▸ Multiset.mem_cons_self _ _)
    refine ⟨fun v hv => ?_, fun v m hc => ?_⟩
    · obtain ⟨n, hs, -⟩ := hO.pending v (ht ▸ Multiset.mem_cons_of_mem (by simpa using hv))
      exact ⟨n, List.mem_append_left _ hs, nofun⟩
    · rcases List.mem_append.mp hc with hc | hc
      · obtain ⟨n, hs, hmn⟩ := hO.closed v m hc
        exact ⟨n, List.mem_append_left _ hs, hmn⟩
      · simp only [List.mem_singleton, Event.closed.injEq] at hc
        obtain ⟨rfl, hm⟩ := hc
        exact ⟨n, List.mem_append_left _ hs, hp m hm.symm⟩

/-- Where nothing is presented while an add is pending, the success callback of an
add dismisses nothing but the sheet whose Save tap started it. -/
theorem own_sheet_closed {s : State} (h : Reachable step Start PresentsAlone s) {w : Word} {m : Modal}
    (hc : .closed w (some m) ∈ s.app.log) : ∃ n, .saved n w ∈ s.app.log ∧ m = .addWord n := by
  have hO : s.app.desk.Own := by
    refine h.inv (I := fun s => s.app.desk.Own) (fun s hs => ?_) fun s a s' hr hO ha hs => ?_
    · rw [hs.launch]
      constructor <;> simp [App.desk, App.launch, App.tasks]
    · have hr : Reach s := hr.mono fun _ _ _ => trivial
      exact (Reach.turn hr hs).own ha hO
  obtain ⟨n, hs, hmn⟩ := hO.closed w m (List.mem_filter.mpr ⟨hc, rfl⟩)
  exact ⟨n, (List.mem_filter.mp hs).1, hmn⟩

/-! ## The next sheet closed -/

/-- A sheet is swiped away while its add is pending, and another one presented. -/
def swipedActions : List Action :=
  [.writing, .saveBoard (some "cat") (some "a word") uuid₁ true, .searched 1 found uuid₂,
    .serve 2 (.success ""),
    .answer 2 "", .swipeDown, .writing, .serve 3 (.success ""), .answer 3 "2022-10-01T09:00:00Z"]

/-- The word saved on sheet 0 has closed sheet 4. -/
theorem swiped_end : ∃ s, Runs step anyStep (State.empty (some phone)) swipedActions s ∧
    .closed ⟨"cat", "a word", uuid₁.uuidString, "", ""⟩ (some (.addWord 4)) ∈ s.app.log ∧
    .saved 4 ⟨"cat", "a word", uuid₁.uuidString, "", ""⟩ ∉ s.app.log :=
  exists_runs (P := fun _ => _ ∧ _) (by decide +kernel)

theorem swipedActions_run : (run step (State.empty (some phone)) swipedActions).isSome = true :=
  isSome_of_exists_runs swiped_end

def swiped : State := (run step (State.empty (some phone)) swipedActions).get swipedActions_run

theorem other_sheet_closed : ¬ ∀ s, Reach s → ∀ w m, .closed w (some m) ∈ s.app.log →
    ∃ n, .saved n w ∈ s.app.log ∧ m = .addWord n := by
  intro h
  obtain ⟨hc, hs⟩ := (get_of_exists_runs swiped_end swipedActions_run).2
  obtain ⟨n, hn, hm⟩ := h swiped (reach_of_run (start_empty _) swipedActions_run) _ _ hc
  cases hm
  exact hs hn

/-- A word is added on a sheet and listed, and another one added on the next sheet. -/
def twoSheets : List Action := oneWord ++ addActions 6 "dog" uuid₃ uuid₄ "2022-10-01T10:00:00Z"

/-- Nothing has been presented while an add was pending, and the second add has closed sheet 6. -/
theorem twoSheets_end : ∃ s, Runs step PresentsAlone (State.empty (some phone)) twoSheets s ∧
    .closed ⟨"dog", "a word", uuid₃.uuidString, "", ""⟩ (some (.addWord 6)) ∈ s.app.log ∧
    .saved 0 ⟨"cat", "a word", uuid₁.uuidString, "", ""⟩ ∈ s.app.log :=
  exists_runs (P := fun _ => _ ∧ _) (by decide +kernel)

theorem own_sheet_closed_dog : ∃ s, Reachable step Start PresentsAlone s ∧
    .saved 0 ⟨"cat", "a word", uuid₁.uuidString, "", ""⟩ ∈ s.app.log ∧
    ∃ n, .saved n ⟨"dog", "a word", uuid₃.uuidString, "", ""⟩ ∈ s.app.log ∧ Modal.addWord 6 = .addWord n := by
  obtain ⟨s, hr, hc, hs⟩ := twoSheets_end
  have h : Reachable step Start PresentsAlone s := ⟨_, twoSheets, start_empty _, hr⟩
  exact ⟨s, h, hs, own_sheet_closed h hc⟩

end BlindBoard
