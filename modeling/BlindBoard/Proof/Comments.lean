import BlindBoard.Proof.WordList

/-!
# Comments in the cloud

Below the collection there are the documents of words and the comments of words
that were written (`Comments.stored`). Each comment has an ID of its own, so one
that is sent is stored where there is no document yet (`Comments.unsent`), and
nothing removes it: a comment has a parent document exactly as long as its word is
not deleted (`comment_parent`).
-/

namespace BlindBoard

open Lib Spec

structure Comments (s : State) : Prop where
  stored : ∀ p d, COLLECTION_BOARD s.app.uid <+: p → s.cloud.documents.lookup p = some d →
    (∃ id, p = COLLECTION_BOARD s.app.uid ++ [id]) ∨
      ∃ w c, s.board.Wrote w ∧ c ∈ s.used ∧ p = commentCollection s.app.uid w.uid ++ [c]
  sent : ∀ p ∈ s.app.net, ∀ c, p.call.autoID = some c → c ∈ s.used
  unsent : ∀ p ∈ s.app.net, ∀ c, p.call.autoID = some c → p.answer = none → ∀ id, IsUUID id →
    s.cloud.documents.lookup (commentCollection s.app.uid id ++ [c]) = none
  distinct : ∀ p ∈ s.app.net, ∀ q ∈ s.app.net, ∀ c, p.call.autoID = some c → q.call.autoID = some c →
    p.ticket = q.ticket

/-- A document that is there after a request was there before, or is the one the request sets. -/
theorem serve_lookup {cloud : Cloud} {r : Request} {o : Outcome} {p : Path} {d : Dictionary}
    (h : (cloud.serve r o).1.documents.lookup p = some d) :
    cloud.documents.lookup p = some d ∨ r = .setData p d := by
  cases o with
  | failure => cases r <;> exact .inl h
  | success url =>
    cases r with
    | setData p' d' =>
      rcases eq_or_ne p p' with rfl | hne
      · exact .inr (by simpa [Cloud.serve, eq_comm] using h)
      · exact .inl (by rwa [Cloud.serve, AList.lookup_insert_ne hne] at h)
    | deleteDocument p' =>
      rcases eq_or_ne p p' with rfl | hne
      · simp [Cloud.serve] at h
      · exact .inl (by rwa [Cloud.serve, AList.lookup_erase_ne hne] at h)
    | getDocuments => exact .inl h
    | putData => exact .inl h
    | downloadURL | deleteObject =>
      simp only [Cloud.serve] at h
      split at h <;> exact .inl h

/-- The calls that set a document. -/
theorem Call.request_setData {uid : Option UUID} {call : Call} {p : Path} {d : Dictionary}
    (h : call.request uid = some (.setData p d)) :
    (∃ w, call.word = some w ∧ p = wordDocument uid w.uid) ∨
      ∃ screen word c comment, call = .addDocument screen word c comment ∧
      p = commentCollection uid word ++ [c] := by
  cases call <;> cases h
  case setData w time u f => exact .inl ⟨w, rfl, rfl⟩
  case addDocument screen word c comment => exact .inr ⟨screen, word, c, comment, rfl, rfl⟩

namespace Comments

variable {s s' : State}

theorem start (h : Start s) : Comments s := by
  constructor
  · intro p d hp hd
    simp [h.documents p hp] at hd
  all_goals rw [h.launch]; simp [App.launch]

theorem commentPath_inj {uid : Option UUID} {id id' c c' : String} (h : IsUUID id) (h' : IsUUID id')
    (he : commentCollection uid id ++ [c] = commentCollection uid id' ++ [c']) : id = id' ∧ c = c' := by
  rw [commentCollection_uuid uid h, commentCollection_uuid uid h'] at he
  simpa using he

theorem move_stored (h : Comments s) (hP : Pipeline s.used s.board s.app.net)
    (hS : Screens s) (hV : Provenance s)
    (hm : Move s s') : ∀ p d, COLLECTION_BOARD s'.app.uid <+: p → s'.cloud.documents.lookup p = some d →
      (∃ id, p = COLLECTION_BOARD s'.app.uid ++ [id]) ∨
        ∃ w c, s'.board.Wrote w ∧ c ∈ s'.used ∧ p = commentCollection s'.app.uid w.uid ++ [c] := by
  intro p d hp hd
  rw [hm.uid] at hp ⊢
  have old : s.cloud.documents.lookup p = some d → (∃ id, p = COLLECTION_BOARD s.app.uid ++ [id]) ∨
      ∃ w c, s'.board.Wrote w ∧ c ∈ s'.used ∧ p = commentCollection s.app.uid w.uid ++ [c] := by
    intro hd
    rcases h.stored p d hp hd with hid | ⟨w, c, hw, hc, hp⟩
    · exact .inl hid
    · exact .inr ⟨w, c, hP.wrote hm hw, hm.used hc, hp⟩
  rcases hm.cloud with hcl | ⟨q, hq, r, outcome, ha, hr, rfl⟩
  · exact old (hcl ▸ hd)
  · rcases serve_lookup hd with hd | rfl
    · exact old hd
    · rcases Call.request_setData hr with ⟨w, hw, rfl⟩ | ⟨screen, word, c, comment, hc, rfl⟩
      · obtain ⟨e, he, ha, -⟩ := hP.pending q hq w hw
        rw [← ha.uid, wordDocument_uuid _ (hP.uid e he).2]
        exact .inl ⟨e.uid, rfl⟩
      · have hA := hS.calls q hq (by rw [hc]; rfl)
        rw [hc] at hA
        obtain ⟨w, hw, rfl⟩ := hA
        exact .inr ⟨w, c, hP.wrote hm (hV.concerns hw), hm.used (h.sent q hq c (by rw [hc]; rfl)), rfl⟩

theorem move_unsent (h : Comments s) (hP : Pipeline s.used s.board s.app.net)
    (hS : Screens s) (hV : Provenance s)
    (hm : Move s s') : ∀ p ∈ s'.app.net, ∀ c, p.call.autoID = some c → p.answer = none → ∀ id, IsUUID id →
      s'.cloud.documents.lookup (commentCollection s'.app.uid id ++ [c]) = none := by
  intro p hp c hc hn id hid
  rw [hm.uid]
  rcases hm.autoID hp hc with ⟨q, hq, -, -, hqp⟩ | ⟨-, hf, rfl⟩
  · obtain rfl := hqp hn
    rcases hm.cloud with hcl | ⟨q', hq', r, outcome, ha, hr, rfl⟩
    · rw [hcl]
      exact h.unsent q hq c hc hn id hid
    · rw [Option.eq_none_iff_forall_not_mem]
      intro d hd
      rcases serve_lookup hd with hd | rfl
      · simp [h.unsent q hq c hc hn id hid] at hd
      · rcases Call.request_setData hr with ⟨w, hw, he⟩ | ⟨screen, word, c', comment, hc', he⟩
        · obtain ⟨e, he', ha, -⟩ := hP.pending q' hq' w hw
          rw [← ha.uid, wordDocument_uuid _ (hP.uid e he').2] at he
          exact comment_ne_word _ hid he
        · have hA := hS.calls q' hq' (by rw [hc']; rfl)
          rw [hc'] at hA
          obtain ⟨w, hw, rfl⟩ := hA
          obtain ⟨e, he', -, rfl⟩ := hV.concerns hw
          obtain ⟨-, rfl⟩ := commentPath_inj hid (hP.uid e he').2 he
          -- the two calls have the ID, so they are one call, and it is served
          have ht := h.distinct q hq q' hq' c hc (by rw [hc']; rfl)
          rcases List.mem_append.mp hp with hp | hp
          · simp [App.take, ht] at hp
          · rw [List.mem_singleton.mp hp] at hn
            cases hn
  · rw [Option.eq_none_iff_forall_not_mem]
    intro d hd
    have hpre : COLLECTION_BOARD s.app.uid <+: commentCollection s.app.uid id ++ [c] := by
      rw [commentCollection_uuid _ hid, List.append_assoc]
      exact List.prefix_append _ _
    rcases h.stored _ d hpre hd with ⟨id', he⟩ | ⟨w, c', hw, hc', he⟩
    · exact comment_ne_word _ hid he
    · obtain ⟨e, he', -, rfl⟩ := hw
      obtain ⟨-, rfl⟩ := commentPath_inj hid (hP.uid e he').2 he
      exact hf hc'

theorem move (h : Comments s) (hP : Pipeline s.used s.board s.app.net) (hS : Screens s) (hV : Provenance s)
    (hm : Move s s') : Comments s' where
  stored := h.move_stored hP hS hV hm
  unsent := h.move_unsent hP hS hV hm
  sent p hp c hc := by
    rcases hm.autoID hp hc with ⟨q, hq, -, hqc, -⟩ | ⟨-, -, rfl⟩
    · exact hm.used (h.sent q hq c (hqc ▸ hc))
    · exact List.mem_cons_self
  distinct p hp q hq c hc hc' := by
    rcases hm.autoID hp hc with ⟨p', hp', ht, hpc, -⟩ | ⟨ht, hf, -⟩ <;>
      rcases hm.autoID hq hc' with ⟨q', hq', ht', hqc, -⟩ | ⟨ht', hf', -⟩
    · rw [← ht, ← ht', h.distinct p' hp' q' hq' c (hpc ▸ hc) (hqc ▸ hc')]
    · exact absurd (h.sent p' hp' c (hpc ▸ hc)) hf'
    · exact absurd (h.sent q' hq' c (hqc ▸ hc')) hf
    · rw [ht, ht']

end Comments

theorem Moved.comments {s : State} (h : Moved s) : Comments s :=
  h.inv (fun _ => Comments.start) fun _ _ hr hc hm => hc.move hr.pipeline hr.screens hr.provenance hm

/-! ## Comments and their words -/

/-- A comment stays. -/
theorem Move.comment {s s' : State} (hm : Move s s') (h : Moved s) {id c : String}
    (hid : IsUUID id) {d : Dictionary}
    (hd : s.cloud.documents.lookup (commentCollection s.app.uid id ++ [c]) = some d) :
    s'.cloud.documents.lookup (commentCollection s.app.uid id ++ [c]) = some d := by
  rcases hm.cloud with hcl | ⟨p, hp, r, outcome, ha, hr, rfl⟩
  · rwa [hcl]
  · rw [State.serve, serve_documents, hd]
    intro ht
    cases hc : p.call with
    | setData w time u f =>
      rw [hc] at hr
      cases hr
      obtain ⟨e, he, hw, -⟩ := h.pipeline.pending p hp w (by rw [hc]; rfl)
      have := Option.some.inj ht
      rw [← hw.uid, wordDocument_uuid _ (h.pipeline.uid e he).2] at this
      exact comment_ne_word _ hid this.symm
    | deleteDocument screen word =>
      have hA := h.screens.calls p hp (by rw [hc]; rfl)
      rw [hc] at hr hA
      cases hr
      obtain ⟨w, hw, rfl⟩ := hA
      obtain ⟨e, he, -, rfl⟩ := h.provenance.concerns hw
      have := Option.some.inj ht
      rw [Entry.word_uid, wordDocument_uuid _ (h.pipeline.uid e he).2] at this
      exact comment_ne_word _ hid this.symm
    | addDocument screen word c' comment =>
      have hA := h.screens.calls p hp (by rw [hc]; rfl)
      rw [hc] at hr hA
      cases hr
      obtain ⟨w, hw, rfl⟩ := hA
      obtain ⟨e, he, -, rfl⟩ := h.provenance.concerns hw
      obtain ⟨rfl, rfl⟩ := Comments.commentPath_inj (h.pipeline.uid e he).2 hid (Option.some.inj ht)
      rw [h.comments.unsent p hp c' (by rw [hc]; rfl) ha _ hid] at hd
      cases hd
    | _ => rw [hc] at hr; cases hr <;> cases ht

theorem Moves.comment {s s' : State} (hms : Moves s s') (h : Moved s) {id c : String}
    (hid : IsUUID id) {d : Dictionary}
    (hd : s.cloud.documents.lookup (commentCollection s.app.uid id ++ [c]) = some d) :
    s'.cloud.documents.lookup (commentCollection s.app.uid id ++ [c]) = some d := by
  induction hms with
  | refl => exact hd
  | tail hms hm ih =>
    rw [← Moves.uid hms] at ih ⊢
    exact hm.comment (h.moves hms) hid ih

/-- The parent of a comment is the document of a word that an add wrote, there as long
as no deletion of it has taken effect, and the comment stays whatever happens. -/
theorem comment_parent {s : State} (h : Reach s) {id c : String} {d : Dictionary}
    (hd : s.cloud.documents.lookup (COLLECTION_BOARD s.app.uid ++ [id, "comments", c]) = some d) :
    (∃ e ∈ s.board, e.uid = id ∧ e.writtenTime.isSome = true) ∧
    ((s.cloud.documents.lookup (wordDocument s.app.uid id)).isSome = true ↔
      ∀ t screen o, .served t (.deleteDocument screen id) (.success o) ∉ s.app.log) ∧
    ∀ as s', Runs step anyStep s as s' →
      s'.cloud.documents.lookup (COLLECTION_BOARD s.app.uid ++ [id, "comments", c]) = some d := by
  have hm := Reach.moved h
  -- the comment's path is below the document of a written word
  obtain ⟨e, he, ht, rfl⟩ : ∃ e ∈ s.board, e.writtenTime.isSome = true ∧ e.uid = id := by
    rcases hm.comments.stored _ d (List.prefix_append _ _) hd
      with ⟨id', hp⟩ | ⟨w, c', ⟨e, he, ht, rfl⟩, -, hp⟩
    · simp at hp
    · rw [Entry.word_uid, commentCollection_uuid _ (hm.pipeline.uid e he).2] at hp
      simp only [List.append_assoc, List.cons_append, List.nil_append,
        List.append_cancel_left_eq, List.cons.injEq] at hp
      exact ⟨e, he, ht, hp.1.symm⟩
  have hid := (hm.pipeline.uid e he).2
  refine ⟨⟨e, he, rfl, ht⟩, ?_, fun as s' hr => ?_⟩
  · rw [wordDocument_uuid _ hid, Option.isSome_iff_exists]
    constructor
    · rintro ⟨d', hd'⟩ t screen o hev
      obtain ⟨e', he', hb, hu, -⟩ := (hm.provenance.holds.documents e.uid d').mp hd'
      obtain ⟨e'', he'', hu', hdel⟩ := (hm.agrees.deleted e.uid).mp ⟨t, screen, o, hev⟩
      obtain rfl := Board.eq_of_uid hm.pipeline.uids he'' he' (hu'.trans hu.symm)
      simp [Entry.onBoard, hdel] at hb
    · intro hn
      have hdel : e.deleted = false := by
        by_contra hx
        obtain ⟨t, screen, o, hev⟩ := (hm.agrees.deleted e.uid).mpr ⟨e, he, rfl, by simpa using hx⟩
        exact hn t screen o hev
      exact ⟨_, (hm.provenance.holds.documents e.uid _).mpr
        ⟨e, he, by simp [Entry.onBoard, ht, hdel], rfl, rfl⟩⟩
  · have hcc : ∀ uid, COLLECTION_BOARD uid ++ [e.uid, "comments", c] =
      commentCollection uid e.uid ++ [c] := by
      intro uid
      rw [commentCollection_uuid uid hid, List.append_assoc]
      rfl
    rw [hcc] at hd ⊢
    exact Moves.comment (h.runs_moves hr) hm hid hd

/-! ## A comment without its word -/

/-- A word is added, commented on and deleted; every request succeeds. -/
def orphanActions : List Action :=
  oneWord ++ [.answer 4 "", .didSelectRow 0, .addComment,
    .saveComment (some "meow") "2022-10-01T10:00:00Z" "c1",
    .serve 9 (.success ""), .answer 9 "", .deleteWord, .confirmDelete, .serve 11 (.success ""),
    .serve 12 (.success ""), .answer 11 "", .answer 12 "", .serve 7 (.success ""), .answer 7 "",
    .serve 10 (.success ""), .answer 10 ""]

/-- Nothing is in flight, nothing has failed, the comment is stored and its parent is gone. -/
theorem orphaned_end : ∃ s, Runs step anyStep (State.empty (some phone)) orphanActions s ∧ s.app.net = [] ∧
    (s.app.log.all fun e => match e with | .served _ _ .failure => false | _ => true) = true ∧
    s.cloud.documents.lookup (COLLECTION_BOARD s.app.uid ++ [uuid₁.uuidString, "comments", "c1"]) =
      some (Comment.document ⟨"meow", "2022-10-01T10:00:00Z"⟩) ∧
    s.cloud.documents.lookup (COLLECTION_BOARD s.app.uid ++ [uuid₁.uuidString]) = none :=
  exists_runs (P := fun _ => _ ∧ _ ∧ _ ∧ _) (by decide +kernel)

theorem orphanActions_run : (run step (State.empty (some phone)) orphanActions).isSome = true :=
  isSome_of_exists_runs orphaned_end

def orphaned : State := (run step (State.empty (some phone)) orphanActions).get orphanActions_run

theorem orphaned_reach : Reach orphaned := reach_of_run (start_empty _) orphanActions_run

theorem orphaned_facts : orphaned.app.net = [] ∧
    (orphaned.app.log.all fun e => match e with | .served _ _ .failure => false | _ => true) = true ∧
    orphaned.cloud.documents.lookup
      (COLLECTION_BOARD orphaned.app.uid ++ [uuid₁.uuidString, "comments", "c1"]) =
      some (Comment.document ⟨"meow", "2022-10-01T10:00:00Z"⟩) ∧
    orphaned.cloud.documents.lookup (COLLECTION_BOARD orphaned.app.uid ++ [uuid₁.uuidString]) = none := by
  rw [orphaned]
  exact (get_of_exists_runs orphaned_end orphanActions_run).2

theorem comment_outlives :
    ¬ ∀ s, Reach s → s.Quiet → (∀ t call, .served t call .failure ∉ s.app.log) → ∀ id c,
    (s.cloud.documents.lookup (COLLECTION_BOARD s.app.uid ++ [id, "comments", c])).isSome = true →
    (s.cloud.documents.lookup (COLLECTION_BOARD s.app.uid ++ [id])).isSome = true := by
  intro h
  obtain ⟨hq, hlog, hc, hp⟩ := orphaned_facts
  have hn : ∀ t call, .served t call .failure ∉ orphaned.app.log := fun t call he => by
    simpa using List.all_eq_true.mp hlog _ he
  have := h orphaned orphaned_reach hq hn uuid₁.uuidString "c1" (by rw [hc]; rfl)
  simp [hp] at this

theorem comment_parent_orphaned :
    (∃ e ∈ orphaned.board, e.uid = uuid₁.uuidString ∧ e.writtenTime.isSome = true) ∧
    ((orphaned.cloud.documents.lookup (wordDocument orphaned.app.uid uuid₁.uuidString)).isSome = true ↔
      ∀ t screen o, .served t (.deleteDocument screen uuid₁.uuidString) (.success o) ∉ orphaned.app.log) ∧
    ∀ as s', Runs step anyStep orphaned as s' → s'.cloud.documents.lookup
      (COLLECTION_BOARD orphaned.app.uid ++ [uuid₁.uuidString, "comments", "c1"]) =
        some (Comment.document ⟨"meow", "2022-10-01T10:00:00Z"⟩) :=
  comment_parent orphaned_reach orphaned_facts.2.2.1

end BlindBoard
