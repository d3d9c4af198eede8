import BlindBoard.Impl.View
import BlindBoard.Spec.Results

/-!
# What the changes of a view say

The change that is noted for a key says how the document under it came from the
one that the view showed (`Changed`). Merging keeps that (`addChange_new` and the
lemmas after it), so no two changes meet that cannot be merged. The query matches
all documents that are kept and noted, so no comparison of them fails: a pass over
the documents that have changed does not fail (`processDocuments`), nor does the
limit (`dropDocuments_noted`).
-/

namespace BlindBoard.Firestore

open Lib

/-! ## Changes -/

/-- Whether a view that showed the document `old` takes `doc` for one with pending mutations. -/
def Document.pendingIn (old doc : Document) : Bool :=
  doc.hasLocalMutations || (old.hasLocalMutations && doc.hasCommittedMutations)

/-- How the document under a key became another, or none, as a change says it. A document
that has `returned` is one that a limit dropped and a refill found again: it may be called
modified as it was. -/
inductive ChangedUnless (q : Query) (returned : Prop) :
    Option DocumentViewChange → Option Document → Option Document → Prop
  | same (doc : Option Document) : ChangedUnless q returned none doc doc
  | added (doc : Document) : ChangedUnless q returned (some ⟨doc, .added⟩) none (some doc)
  /-- The document is the one that the view showed; a limit may drop a later version of it. -/
  | removed (doc old : Document) (h : doc = old ∨ q.limit ≠ .none ∧ q.Matches doc = true) :
    ChangedUnless q returned (some ⟨doc, .removed⟩) (some old) none
  | modified (doc old : Document) (h : old.value = doc.value → returned) :
    ChangedUnless q returned (some ⟨doc, .modified⟩) (some old) (some doc)
  | metadata (doc old : Document) (h : old.value = doc.value)
      (hp : old.hasLocalMutations ≠ old.pendingIn doc) :
    ChangedUnless q returned (some ⟨doc, .metadata⟩) (some old) (some doc)

/-- How the document under a key became another, or none: no change for the same document,
and one of the right type for another. -/
abbrev Changed (q : Query) := ChangedUnless q False

variable {q : Query} {returned : Prop}

theorem ChangedUnless.mono {returned' : Prop} {change : Option DocumentViewChange} {old doc : Option Document}
    (h : ChangedUnless q returned change old doc) (hr : returned → returned') :
    ChangedUnless q returned' change old doc := by
  cases h with
  | same => exact .same _
  | added d => exact .added d
  | removed d o h => exact .removed d o h
  | modified d o h => exact .modified d o fun he => hr (h he)
  | metadata d o h hp => exact .metadata d o h hp

theorem ChangedUnless.changed {change : Option DocumentViewChange} {old doc : Option Document}
    (h : ChangedUnless q returned change old doc)
    (hr : returned → ∀ o d, old = some o → doc = some d → o.value ≠ d.value) : Changed q change old doc := by
  cases h with
  | same => exact .same _
  | added d => exact .added d
  | removed d o h => exact .removed d o h
  | modified d o h => exact .modified d o fun he => hr (h he) o d rfl rfl he
  | metadata d o h hp => exact .metadata d o h hp

/-- What is noted under a key in the end. -/
structure Merged (q : Query) (returned : Prop) (changes changes' : DocumentViewChangeSet) (key : Path)
    (first doc : Option Document) : Prop where
  changed : ChangedUnless q returned (changes'.lookup key) first doc
  keys : ∀ change ∈ changes'.lookup key, change.document.key = key
  matched : ∀ change ∈ changes'.lookup key, q.Matches change.document = true
  other : ∀ k, k ≠ key → changes'.lookup k = changes.lookup k

variable {changes : DocumentViewChangeSet} {first : Option Document} {x : Document}

theorem merged_insert {note : DocumentViewChange} {doc : Option Document}
    (hc : ChangedUnless q returned (some note) first doc) (hm : q.Matches note.document = true) :
    Merged q returned changes (changes.insert note.document.key note) note.document.key first doc where
  changed := by rwa [AList.lookup_insert]
  keys change h := by
    rw [AList.lookup_insert] at h
    cases h
    rfl
  matched change h := by
    rw [AList.lookup_insert] at h
    cases h
    exact hm
  other key hk := AList.lookup_insert_ne hk

/-- The first change of a key is noted. -/
theorem addChange_new {change : DocumentViewChange} {doc : Option Document}
    (hl : changes.lookup change.document.key = none) (hc : ChangedUnless q returned (some change) first doc)
    (hm : q.Matches change.document = true) :
    ∃ changes', addChange changes change = some changes' ∧
      Merged q returned changes changes' change.document.key first doc :=
  ⟨_, by simp only [addChange, hl], merged_insert hc hm⟩

/-- A change of the metadata leaves the type of an earlier change. -/
theorem addChange_metadata {d : Document} (h : ChangedUnless q returned (changes.lookup x.key) first (some d))
    (hv : d.value = x.value) (hp : ∀ old, first = some old → old.hasLocalMutations ≠ old.pendingIn x)
    (hm : q.Matches x = true) :
    ∃ changes', addChange changes ⟨x, .metadata⟩ = some changes' ∧
      Merged q returned changes changes' x.key first (some x) := by
  cases hl : changes.lookup x.key with
  | none =>
    rw [hl] at h
    cases h
    exact addChange_new hl (.metadata x d hv (hp d rfl)) hm
  | some note =>
    rw [hl] at h
    cases h with
    | added _ => exact ⟨_, by simp [addChange, hl], merged_insert (.added x) hm⟩
    | modified _ old hne =>
      exact ⟨_, by simp [addChange, hl], merged_insert (.modified x old fun he => hne (he.trans hv.symm)) hm⟩
    | metadata _ old hv' _ =>
      exact ⟨_, by simp [addChange, hl], merged_insert (.metadata x old (hv'.trans hv) (hp old rfl)) hm⟩

/-- A document that is not shown is added, for the first time or after it was removed. -/
theorem addChange_added (h : ChangedUnless q returned (changes.lookup x.key) first none)
    (hr : ∀ old, first = some old → returned) (hm : q.Matches x = true) :
    ∃ changes', addChange changes ⟨x, .added⟩ = some changes' ∧
      Merged q returned changes changes' x.key first (some x) := by
  cases hl : changes.lookup x.key with
  | none =>
    rw [hl] at h
    cases h
    exact addChange_new hl (.added x) hm
  | some note =>
    rw [hl] at h
    cases h with
    | removed _ old _ =>
      exact ⟨_, by simp [addChange, hl], merged_insert (.modified x old fun _ => hr old rfl) hm⟩

/-- A document that is shown is removed; if it has been changed before, a limit drops it. -/
theorem addChange_removed (h : ChangedUnless q returned (changes.lookup x.key) first (some x))
    (hq : ∀ note, changes.lookup x.key = some note → q.limit ≠ .none) (hm : q.Matches x = true) :
    ∃ changes', addChange changes ⟨x, .removed⟩ = some changes' ∧
      Merged q returned changes changes' x.key first none := by
  cases hl : changes.lookup x.key with
  | none =>
    rw [hl] at h
    cases h
    exact addChange_new hl (.removed x x (.inl rfl)) hm
  | some note =>
    have hlimit := hq note hl
    rw [hl] at h
    cases h with
    | added _ =>
      have herase : (changes.erase x.key).lookup x.key = none := AList.lookup_erase x.key changes
      refine ⟨changes.erase x.key, by simp [addChange, hl], ?_, ?_, ?_,
        fun key hk => AList.lookup_erase_ne hk⟩
      · rw [herase]
        exact .same none
      · rw [herase]
        simp
      · rw [herase]
        simp
    | modified _ old _ | metadata _ old _ _ =>
      exact ⟨_, by simp [addChange, hl], merged_insert (.removed x old (.inr ⟨hlimit, hm⟩)) hm⟩

/-! ## What is noted -/

/-- What is noted of a view whose documents were `old`: the changes say how the documents
under the keys came from these, the query matches the documents of the view and of the
changes, and the mutated keys are those of documents with local mutations. -/
structure NotedUnless (old : DocumentSet q) (returned : Path → Prop) (c : ViewDocumentChanges q) : Prop where
  changed : ∀ key, ChangedUnless q (returned key) (c.changeSet.lookup key) (old.getDocument key)
    (c.documentSet.getDocument key)
  keys : ∀ key, ∀ change ∈ c.changeSet.lookup key, change.document.key = key
  matched : ∀ key, ∀ change ∈ c.changeSet.lookup key, q.Matches change.document = true
  matching : c.documentSet.Matching
  mutated : ∀ key, key ∈ c.mutatedKeys ↔
    ∃ doc, c.documentSet.getDocument key = some doc ∧ doc.hasLocalMutations = true

/-- No document has returned as it was. -/
abbrev Noted (old : DocumentSet q) := NotedUnless old fun _ => False

namespace NotedUnless

variable {old : DocumentSet q} {returned : Path → Prop} {c : ViewDocumentChanges q} {b : Bool}

theorem mono {returned' : Path → Prop} (h : NotedUnless old returned c)
    (hr : ∀ key, returned key → returned' key) :
    NotedUnless old returned' c :=
  { h with changed := fun key => (h.changed key).mono (hr key) }

/-- A document is put under its key. -/
theorem put (h : NotedUnless old returned c) {doc : Document} (hd : q.Matches doc = true)
    (hm : Merged q (returned doc.key) c.changeSet changes doc.key (old.getDocument doc.key) (some doc)) :
    NotedUnless old returned ⟨c.documentSet.put doc, changes,
      if doc.hasLocalMutations then c.mutatedKeys.insert doc.key else c.mutatedKeys.erase doc.key, b⟩ where
  changed key := by
    rw [DocumentSet.getDocument_put]
    by_cases he : key = doc.key
    · subst he
      rw [if_pos rfl]
      exact hm.changed
    · rw [if_neg he, hm.other key he]
      exact h.changed key
  keys key := by
    by_cases he : key = doc.key
    · subst he
      exact hm.keys
    · rw [hm.other key he]
      exact h.keys key
  matched key := by
    by_cases he : key = doc.key
    · subst he
      exact hm.matched
    · rw [hm.other key he]
      exact h.matched key
  matching := h.matching.put hd
  mutated key := by
    rw [DocumentSet.getDocument_put]
    by_cases he : key = doc.key
    · subst he
      cases hl : doc.hasLocalMutations <;> simp [SortedSet.mem_insert_iff, SortedSet.mem_erase_iff, hl]
    · rw [if_neg he, ← h.mutated key]
      cases hl : doc.hasLocalMutations <;> simp [SortedSet.mem_insert_iff, SortedSet.mem_erase_iff, he]

/-- A document is taken away. -/
theorem remove (h : NotedUnless old returned c) {k : Path}
    (hm : Merged q (returned k) c.changeSet changes k (old.getDocument k) none) :
    NotedUnless old returned ⟨c.documentSet.remove k, changes, c.mutatedKeys.erase k, b⟩ where
  changed key := by
    rw [DocumentSet.getDocument_remove]
    by_cases he : key = k
    · subst he
      rw [if_pos rfl]
      exact hm.changed
    · rw [if_neg he, hm.other key he]
      exact h.changed key
  keys key := by
    by_cases he : key = k
    · subst he
      exact hm.keys
    · rw [hm.other key he]
      exact h.keys key
  matched key := by
    by_cases he : key = k
    · subst he
      exact hm.matched
    · rw [hm.other key he]
      exact h.matched key
  matching := h.matching.remove
  mutated key := by
    rw [DocumentSet.getDocument_remove]
    by_cases he : key = k
    · simp [SortedSet.mem_erase_iff, he]
    · rw [if_neg he, ← h.mutated key]
      simp [SortedSet.mem_erase_iff, he]

end NotedUnless

namespace View

variable {view : View q}

theorem matching_key {doc d : Document} (h : matching q doc = some d) : d = doc ∧ q.Matches doc = true := by
  obtain ⟨hm, hd⟩ := Option.ite_none_right_eq_some.mp h
  exact ⟨(Option.some.inj hd).symm, hm⟩

/-- What is under a key after a document of that key has been processed. -/
def settled (view : View q) (old : Option Document) (doc : Document) : Option Document :=
  if (view.changeOf old (matching q doc)).isSome then matching q doc else old

/-! ## One document -/

/-- Whether a change leaves room in a full limit, where all documents can be compared. -/
def makesRoom (q : Query) (lastDocInLimit firstDocInLimit : Option Document)
    (change : DocumentViewChange) : Bool :=
  match change.type with
  | .modified =>
    (lastDocInLimit.any fun doc => q.totalOrder change.document doc = .gt) ||
      firstDocInLimit.any fun doc => q.totalOrder change.document doc = .lt
  | .removed => lastDocInLimit.isSome || firstDocInLimit.isSome
  | _ => false

theorem outside_eq {side : Ordering} {doc : Document} {edge : Option Document} (hd : q.Matches doc = true)
    (he : ∀ d ∈ edge, q.Matches d = true) :
    outside q side doc edge = some (edge.any fun d => q.totalOrder doc d = side) := by
  cases edge with
  | none => rfl
  | some d => simp [outside, Query.comparator_of_matches hd (he d rfl)]

theorem leavesLimit_eq {last first : Option Document} {change : DocumentViewChange}
    (hlast : ∀ d ∈ last, q.Matches d = true) (hfirst : ∀ d ∈ first, q.Matches d = true)
    (hc : q.Matches change.document = true) :
    leavesLimit q last first change = some (makesRoom q last first change) := by
  obtain ⟨doc, type⟩ := change
  cases type with
  | modified => simp [leavesLimit, makesRoom, outside_eq hc hlast, outside_eq hc hfirst]
  | removed | added | metadata => rfl

/-- The mutated keys are those of shown documents with local mutations, and the query
matches what is shown. -/
structure Marked (view : View q) : Prop where
  mutated : ∀ key, key ∈ view.mutatedKeys ↔
    ∃ doc, view.documentSet.getDocument key = some doc ∧ doc.hasLocalMutations = true
  matching : view.documentSet.Matching

/-- What a document of the pass may do to what is noted for its key: a first modification
or removal, or the return of a document that was shown. -/
structure Fresh (view : View q) (old : DocumentSet q) (returned : Path → Prop)
    (changes : DocumentViewChangeSet)
    (doc : Document) : Prop where
  first : ∀ change, view.changeOf (old.getDocument doc.key) (matching q doc) = some change →
    change.type = .modified ∨ change.type = .removed → changes.lookup doc.key = none
  returned : old.getDocument doc.key = none → ∀ d, view.documentSet.getDocument doc.key = some d →
    returned doc.key

/-- The change that a document makes is merged with what is noted for its key. -/
theorem changeOf_merged (hv : view.Marked) {old : DocumentSet q} {returned : Path → Prop}
    {c : ViewDocumentChanges q}
    {doc : Document} {change : DocumentViewChange} (hd : NotedUnless view.documentSet returned c)
    (hc : c.documentSet.getDocument doc.key = old.getDocument doc.key)
    (hf : view.Fresh old returned c.changeSet doc)
    (hch : view.changeOf (old.getDocument doc.key) (matching q doc) = some change) :
    q.Matches change.document = true ∧ ∃ changes, addChange c.changeSet change = some changes ∧
      Merged q (returned doc.key) c.changeSet changes doc.key (view.documentSet.getDocument doc.key)
      (matching q doc) := by
  have hnow := hd.changed doc.key
  have hfirst := hf.first change hch
  have hreturned := hf.returned
  rw [hc] at hnow
  cases hm : matching q doc with
  | none =>
    cases ho : old.getDocument doc.key with
    | none =>
      rw [ho, hm] at hch
      cases hch
    | some o =>
      rw [ho, hm] at hch
      cases hch
      have hlookup := hfirst (.inr rfl)
      have hkey : o.key = doc.key := DocumentSet.getDocument_key ho
      have hmatch : q.Matches o = true := hd.matching o (DocumentMap.find_eq.mp (hc.trans ho)).1
      rw [ho, ← hkey] at hnow
      have hremoved := addChange_removed hnow (fun note hn => by rw [hkey, hlookup] at hn; cases hn) hmatch
      rw [hkey] at hremoved
      exact ⟨hmatch, hremoved⟩
  | some new =>
    obtain ⟨rfl, hmatch⟩ := matching_key hm
    cases ho : old.getDocument new.key with
    | none =>
      rw [ho, hm] at hch
      cases hch
      rw [ho] at hnow
      exact ⟨hmatch, addChange_added hnow (hreturned ho) hmatch⟩
    | some o =>
      rw [ho, hm] at hch
      rw [ho] at hnow
      simp only [changeOf] at hch
      split at hch
      next hval =>
        obtain ⟨-, hch⟩ := Option.ite_none_left_eq_some.mp hch
        cases hch
        have hlookup := hfirst (.inl rfl)
        rw [hlookup] at hnow
        generalize view.documentSet.getDocument new.key = first at hnow ⊢
        cases hnow
        exact ⟨hmatch, addChange_new hlookup (.modified new o fun he => absurd he hval) hmatch⟩
      next hval =>
        obtain ⟨hpending, hch⟩ := Option.ite_none_right_eq_some.mp hch
        cases hch
        refine ⟨hmatch, addChange_metadata hnow (not_not.mp hval) (fun d hd => ?_) hmatch⟩
        -- the key is a mutated one if what was shown first has local mutations
        have hmutated : decide (new.key ∈ view.mutatedKeys) = d.hasLocalMutations := by
          rw [Bool.eq_iff_iff, decide_eq_true_iff, hv.mutated, hd]
          simp
        rw [hmutated] at hpending
        exact hpending

/-- One document is processed. -/
theorem processDocument_noted (hv : view.Marked) {last first : Option Document}
    (hlast : ∀ d ∈ last, q.Matches d = true)
    (hfirst : ∀ d ∈ first, q.Matches d = true) {old : DocumentSet q} {returned : Path → Prop}
    {c : ViewDocumentChanges q}
    {doc : Document} (hd : NotedUnless view.documentSet returned c)
    (hc : c.documentSet.getDocument doc.key = old.getDocument doc.key)
    (hf : view.Fresh old returned c.changeSet doc) :
    ∃ c', view.processDocument old last first c doc = some c' ∧ NotedUnless view.documentSet returned c' ∧
      (∀ key, c'.documentSet.getDocument key =
        if key = doc.key then view.settled (old.getDocument key) doc else c.documentSet.getDocument key) ∧
      (∀ key, key ≠ doc.key → c'.changeSet.lookup key = c.changeSet.lookup key) ∧
      c'.needsRefill = (c.needsRefill ||
        (view.changeOf (old.getDocument doc.key) (matching q doc)).any (makesRoom q last first)) := by
  unfold processDocument
  cases hch : view.changeOf (old.getDocument doc.key) (matching q doc) with
  | none =>
    refine ⟨c, rfl, hd, fun key => ?_, fun _ _ => rfl, by simp⟩
    split
    next he =>
      subst he
      rw [settled, hch, hc]
      rfl
    · rfl
  | some change =>
    obtain ⟨hmatch, changes, hadd, hm⟩ := changeOf_merged hv hd hc hf hch
    have hsettled : view.settled (old.getDocument doc.key) doc = matching q doc := by rw [settled, hch]; rfl
    cases hnew : matching q doc with
    | some new =>
      obtain ⟨rfl, hq⟩ := matching_key hnew
      rw [hnew] at hm hsettled
      simp only [hadd, leavesLimit_eq hlast hfirst hmatch, hd.matching.insert_eq hq, bind, Option.bind]
      refine ⟨_, rfl, hd.put hq hm, fun key => ?_, hm.other, rfl⟩
      dsimp only
      rw [DocumentSet.getDocument_put]
      split
      next he => rw [he, hsettled]
      · rfl
    | none =>
      rw [hnew] at hm hsettled
      simp only [hadd, leavesLimit_eq hlast hfirst hmatch, hd.matching.erase_eq, bind, Option.bind]
      refine ⟨_, rfl, hd.remove hm, fun key => ?_, hm.other, rfl⟩
      dsimp only
      rw [DocumentSet.getDocument_remove]
      split
      next he => rw [he, hsettled]
      · rfl

/-! ## A pass -/

/-- The documents that have changed are processed. -/
theorem processDocuments (hv : view.Marked) {last first : Option Document}
    (hlast : ∀ d ∈ last, q.Matches d = true)
    (hfirst : ∀ d ∈ first, q.Matches d = true) {old : DocumentSet q} {returned : Path → Prop}
    {docs : List Document}
    (hn : (docs.map Document.key).Nodup) {c : ViewDocumentChanges q}
    (hd : NotedUnless view.documentSet returned c)
    (hc : ∀ doc ∈ docs, c.documentSet.getDocument doc.key = old.getDocument doc.key)
    (hf : ∀ doc ∈ docs, view.Fresh old returned c.changeSet doc) :
    ∃ c', docs.foldlM (view.processDocument old last first) c = some c' ∧
    NotedUnless view.documentSet returned c' ∧
      (∀ doc ∈ docs, c'.documentSet.getDocument doc.key = view.settled (old.getDocument doc.key) doc) ∧
      (∀ key, (∀ doc ∈ docs, doc.key ≠ key) →
        c'.documentSet.getDocument key = c.documentSet.getDocument key) ∧
      c'.needsRefill = (c.needsRefill || docs.any fun doc =>
        (view.changeOf (old.getDocument doc.key) (matching q doc)).any (makesRoom q last first)) := by
  induction docs generalizing c with
  | nil => exact ⟨c, rfl, hd, by simp, fun _ _ => rfl, by simp⟩
  | cons doc docs ih =>
    obtain ⟨hkey, hn⟩ := List.nodup_cons.mp hn
    have hne : ∀ d ∈ docs, d.key ≠ doc.key := fun d hd he => hkey (he ▸ List.mem_map_of_mem hd)
    obtain ⟨c₁, h₁, hd₁, hg₁, hl₁, hr₁⟩ := processDocument_noted hv hlast hfirst hd
      (hc doc List.mem_cons_self) (hf doc List.mem_cons_self)
    -- the documents that follow are of other keys
    have hc₁ : ∀ d ∈ docs, c₁.documentSet.getDocument d.key = old.getDocument d.key := fun d hd => by
      rw [hg₁, if_neg (hne d hd)]
      exact hc d (List.mem_cons_of_mem _ hd)
    have hf₁ : ∀ d ∈ docs, view.Fresh old returned c₁.changeSet d := fun d hd =>
      { hf d (List.mem_cons_of_mem _ hd) with
        first := fun change hch ht => by
          rw [hl₁ _ (hne d hd)]
          exact (hf d (List.mem_cons_of_mem _ hd)).first change hch ht }
    obtain ⟨c', h', hd', hdocs, hother, hr⟩ := ih hn hd₁ hc₁ hf₁
    refine ⟨c', by rw [List.foldlM_cons, h₁]; exact h', hd', fun d hd => ?_, fun key hk => ?_, ?_⟩
    · rcases List.mem_cons.mp hd with rfl | hd
      · rw [hother _ hne, hg₁, if_pos rfl]
      · exact hdocs d hd
    · rw [hother key fun d hd => hk d (List.mem_cons_of_mem _ hd), hg₁,
        if_neg (hk doc List.mem_cons_self).symm]
    · rw [hr, hr₁, List.any_cons, Bool.or_assoc]

section Drop

variable {old : DocumentSet q} {returned : Path → Prop} {c : ViewDocumentChanges q}

/-- A document at the edge of a limit is dropped. -/
theorem dropped (h : NotedUnless old returned c) (hq : q.limit ≠ .none) {doc : Document}
    (hd : c.documentSet.getDocument doc.key = some doc) :
    ∃ changes, addChange c.changeSet ⟨doc, .removed⟩ = some changes ∧
      NotedUnless old returned ⟨c.documentSet.remove doc.key, changes,
        c.mutatedKeys.erase doc.key, c.needsRefill⟩ := by
  have hnow := h.changed doc.key
  rw [hd] at hnow
  have hmatch : q.Matches doc = true := h.matching doc (DocumentMap.find_eq.mp hd).1
  obtain ⟨changes, ha, hm⟩ := addChange_removed hnow (fun _ _ => hq) hmatch
  exact ⟨changes, ha, h.remove hm⟩

/-- As many documents are dropped as there are. -/
theorem dropDocuments_noted {n : ℕ} (h : NotedUnless old returned c) (hq : q.limit ≠ .none)
    (hn : n ≤ c.documentSet.toList.length) :
    ∃ c', dropDocuments n c = some c' ∧ NotedUnless old returned c' ∧ c'.needsRefill = c.needsRefill ∧
      c'.documentSet.toList = match q.limit with
        | .first _ => c.documentSet.toList.take (c.documentSet.toList.length - n)
        | _ => c.documentSet.toList.drop n := by
  induction n generalizing c with
  | zero =>
    refine ⟨c, rfl, h, rfl, ?_⟩
    split <;> simp
  | succ n ih =>
    obtain ⟨doc, hdoc, hk, hl⟩ : ∃ doc, outermost c.documentSet = some doc ∧
      c.documentSet.getDocument doc.key = some doc ∧
        (c.documentSet.remove doc.key).toList = match q.limit with
          | .first _ => c.documentSet.toList.dropLast
          | _ => c.documentSet.toList.tail := by
      have hne : c.documentSet.toList ≠ [] := by
        rintro he
        rw [he] at hn
        cases hn
      unfold outermost
      cases q.limit with
      | first limit =>
        have hlast : c.documentSet.getLastDocument = some _ := List.getLast?_eq_some_getLast hne
        exact ⟨_, hlast, DocumentSet.remove_last hlast⟩
      | none | last limit =>
        have hfirst : c.documentSet.getFirstDocument = some _ := List.head?_eq_some_head hne
        exact ⟨_, hfirst, DocumentSet.remove_first hfirst⟩
    obtain ⟨changes, ha, hc⟩ := dropped h hq hk
    have hlen : (c.documentSet.remove doc.key).toList.length = c.documentSet.toList.length - 1 := by
      rw [hl]
      split <;> simp
    obtain ⟨c', hc', hd, hr, hlist⟩ := ih hc (by dsimp only; omega)
    refine ⟨c', ?_, hd, hr, hlist.trans ?_⟩
    · simp only [dropDocuments, hdoc, h.matching.erase_eq, ha, bind, Option.bind, hc']
    dsimp only
    rw [hlen, hl]
    cases q.limit with
    | first limit =>
      show (c.documentSet.toList.dropLast.take _) = _
      rw [List.dropLast_eq_take, List.take_take]
      congr 1
      omega
    | none | last limit => exact List.drop_tail

/-- The limit leaves what it is to leave. -/
theorem applyLimit_noted (h : NotedUnless old returned c) :
    ∃ c', applyLimit c = some c' ∧ NotedUnless old returned c' ∧ c'.needsRefill = c.needsRefill ∧
      c'.documentSet.toList = q.limit.cut c.documentSet.toList := by
  unfold applyLimit
  have hlen := c.documentSet.length_toList
  cases hq : q.limit with
  | none => exact ⟨c, rfl, h, rfl, rfl⟩
  | first limit =>
    obtain ⟨c', hc, hd, hr, hl⟩ :=
      dropDocuments_noted h (n := c.documentSet.size - limit) (by simp [hq]) (by omega)
    refine ⟨c', hc, hd, hr, ?_⟩
    rw [hl, hq]
    show _ = c.documentSet.toList.take limit
    rw [List.take_eq_take_iff]
    omega
  | last limit =>
    obtain ⟨c', hc, hd, hr, hl⟩ :=
      dropDocuments_noted h (n := c.documentSet.size - limit) (by simp [hq]) (by omega)
    refine ⟨c', hc, hd, hr, ?_⟩
    rw [hl, hq, ← hlen]
    rfl

end Drop

end View

end BlindBoard.Firestore
