import BlindBoard.Proof.ViewChanges

/-!
# Passes over documents that have changed

A pass of `computeDocumentChanges` settles what is under the keys of the documents
that have changed, leaves the other keys alone, and cuts the limit
(`computeDocumentChanges_noted`). What a view shows follows the documents of the
local store (`Follows`): they match the query, and a shown document has the
fields of the store's, but where the view waits for the service. So a
refill never needs a refill, and a document that was cut before it does not return
as it was: it would be cut again (`not_returned`). A view always takes over new
documents (`emitted`).
-/

namespace BlindBoard.Firestore

open Lib

namespace View

variable {q : Query} {view : View q}

/-- What is under the keys after the documents have been processed. -/
structure Settles (view : View q) (old : DocumentSet q) (docs : DocumentMap)
    (new : DocumentSet q) : Prop where
  changed : ∀ doc ∈ docs.documents, new.getDocument doc.key = view.settled (old.getDocument doc.key) doc
  unchanged : ∀ key, (∀ doc ∈ docs.documents, doc.key ≠ key) → new.getDocument key = old.getDocument key

/-- Whether a document that has changed leaves room in a full limit. -/
def needsRefill (view : View q) (old : DocumentSet q) (docs : DocumentMap) : Bool :=
  docs.documents.any fun doc =>
    (view.changeOf (old.getDocument doc.key) (matching q doc)).any
      (makesRoom q (lastDocInLimit old) (firstDocInLimit old))

theorem edges_match {old : DocumentSet q} (h : old.Matching) :
    (∀ d ∈ lastDocInLimit old, q.Matches d = true) ∧ ∀ d ∈ firstDocInLimit old, q.Matches d = true := by
  have matches_of {d : Document} (hd : d ∈ old.toList) : q.Matches d = true := h d ((old.agree d).mp hd)
  constructor
  · intro d hd
    unfold lastDocInLimit at hd
    split at hd
    · exact matches_of (List.mem_of_getLast? (Option.ite_none_right_eq_some.mp hd).2)
    · cases hd
  · intro d hd
    unfold firstDocInLimit at hd
    split at hd
    · exact matches_of (List.mem_of_head? (Option.ite_none_right_eq_some.mp hd).2)
    · cases hd

/-- A pass succeeds, if a second one needs no refill. -/
theorem computeDocumentChanges_noted (hv : view.Marked) (docs : DocumentMap)
    (previous : Option (ViewDocumentChanges q))
    {returned : Path → Prop} (h : NotedUnless view.documentSet returned (view.startChanges previous))
    (hs : (view.startChanges previous).needsRefill = false)
    (hf : ∀ doc ∈ docs.documents, view.Fresh (view.startChanges previous).documentSet returned
      (view.startChanges previous).changeSet doc)
    (hr : previous.isSome = true → view.needsRefill (view.startChanges previous).documentSet docs = false) :
    ∃ c new, view.computeDocumentChanges docs previous = some c ∧ NotedUnless view.documentSet returned c ∧
      view.Settles (view.startChanges previous).documentSet docs new ∧
      c.documentSet.toList = q.limit.cut new.toList ∧
      c.needsRefill = view.needsRefill (view.startChanges previous).documentSet docs := by
  obtain ⟨hlast, hfirst⟩ := edges_match h.matching
  obtain ⟨c₁, h₁, hn₁, hdocs, hother, hr₁⟩ :=
    processDocuments hv hlast hfirst docs.nodup h (fun _ _ => rfl) hf
  obtain ⟨c, hc, hn, hr', hl⟩ := applyLimit_noted hn₁
  have hneeds : c.needsRefill = view.needsRefill (view.startChanges previous).documentSet docs := by
    rw [hr', hr₁, hs, Bool.false_or]
    rfl
  refine ⟨c, c₁.documentSet, ?_, hn, ⟨hdocs, hother⟩, hl, hneeds⟩
  unfold computeDocumentChanges
  simp only [h₁, hc, bind, Option.bind]
  rw [if_neg]
  rw [hneeds]
  cases hp : previous.isSome with
  | false => simp
  | true => simp [hr hp]

/-! ## Following the local store -/

/-- What is settled under the key of a document. -/
theorem settled_some {old : Option Document} {doc d : Document} (h : view.settled old doc = some d) :
    q.Matches doc = true ∧
    (d.value = doc.value ∨ old = some d ∧ shouldWaitForSyncedDocument doc d = true) := by
  unfold settled at h
  split at h
  · obtain ⟨rfl, hm⟩ := matching_key h
    exact ⟨hm, .inl rfl⟩
  next hch =>
    subst h
    cases hm : matching q doc with
    | none =>
      rw [hm] at hch
      exact absurd rfl hch
    | some new =>
      rw [hm] at hch
      obtain ⟨rfl, hq⟩ := matching_key hm
      refine ⟨hq, ?_⟩
      by_cases hv : d.value = new.value
      · exact .inl hv
      · refine .inr ⟨rfl, ?_⟩
        by_contra hw
        exact hch (by simp [changeOf, hv, hw])

/-- A document that is shown is one of the store, or an earlier one that the view waits to replace. -/
def Follows (documents : DocumentMap) (shown : DocumentSet q) : Prop :=
  ∀ key d, shown.getDocument key = some d → ∃ doc, documents.find key = some doc ∧ q.Matches doc = true ∧
    (d.value = doc.value ∨ shouldWaitForSyncedDocument doc d = true)

theorem Follows.subset {documents : DocumentMap} {shown shown' : DocumentSet q} (h : Follows documents shown)
    (hs : shown'.toList ⊆ shown.toList) : Follows documents shown' := by
  intro key d hd
  obtain rfl := DocumentSet.getDocument_key hd
  exact h _ d (DocumentSet.mem_toList.mp (hs (DocumentSet.mem_toList.mpr hd)))

theorem Follows.settles {documents changes : DocumentMap} {shown new : DocumentSet q}
    (h : Follows documents shown)
    (hs : view.Settles shown changes new) : Follows (documents.update changes) new := by
  intro key d hd
  by_cases hk : ∃ doc ∈ changes.documents, doc.key = key
  · obtain ⟨doc, hdoc, rfl⟩ := hk
    rw [hs.changed doc hdoc] at hd
    obtain ⟨hm, hv⟩ := settled_some hd
    exact ⟨doc, DocumentMap.find_update_of_mem hdoc, hm, hv.imp_right And.right⟩
  · have hne : ∀ doc ∈ changes.documents, doc.key ≠ key := fun doc hdoc he => hk ⟨doc, hdoc, he⟩
    rw [hs.unchanged key hne] at hd
    rw [DocumentMap.find_update_of_ne hne]
    exact h key d hd

/-- A pass over all documents that match. -/
theorem Follows.refilled {documents : DocumentMap} {shown new : DocumentSet q} (h : Follows documents shown)
    (hs : view.Settles shown (documents.filter q.Matches) new) : Follows documents new := by
  intro key d hd
  by_cases hk : ∃ doc ∈ (documents.filter q.Matches).documents, doc.key = key
  · obtain ⟨doc, hdoc, rfl⟩ := hk
    rw [hs.changed doc hdoc] at hd
    obtain ⟨hm, hv⟩ := settled_some hd
    exact ⟨doc, DocumentMap.find_eq.mpr ⟨(DocumentMap.mem_filter.mp hdoc).1, rfl⟩, hm, hv.imp_right And.right⟩
  · rw [hs.unchanged key fun doc hdoc he => hk ⟨doc, hdoc, he⟩] at hd
    exact h key d hd

/-- A pass over all documents that match modifies none that is shown, and removes none. -/
theorem Follows.change_type {documents : DocumentMap} {shown : DocumentSet q}
    (h : Follows documents shown) {doc : Document}
    (hd : doc ∈ (documents.filter q.Matches).documents) {change : DocumentViewChange}
    (hc : view.changeOf (shown.getDocument doc.key) (matching q doc) = some change) :
    change.type = .added ∨ change.type = .metadata := by
  obtain ⟨hd, hq⟩ := DocumentMap.mem_filter.mp hd
  rw [show matching q doc = some doc from if_pos hq] at hc
  cases hg : shown.getDocument doc.key with
  | none =>
    rw [hg] at hc
    cases hc
    exact .inl rfl
  | some old =>
    obtain ⟨d, hf, -, hv⟩ := h _ old hg
    have he : documents.find doc.key = some doc := DocumentMap.find_eq.mpr ⟨hd, rfl⟩
    obtain rfl : doc = d := Option.some.inj (he.symm.trans hf)
    rw [hg] at hc
    simp only [changeOf] at hc
    split at hc
    next hval =>
      rw [if_pos (hv.resolve_left hval)] at hc
      cases hc
    · obtain ⟨-, hc⟩ := Option.ite_none_right_eq_some.mp hc
      cases hc
      exact .inr rfl

/-- So it needs no refill. -/
theorem Follows.needsRefill {documents : DocumentMap} {shown : DocumentSet q} (h : Follows documents shown) :
    view.needsRefill shown (documents.filter q.Matches) = false := by
  unfold View.needsRefill
  rw [List.any_eq_false]
  intro doc hdoc
  rw [Bool.not_eq_true, Option.any_eq_false]
  intro change hc
  rcases h.change_type hdoc hc with ht | ht
  · simp [makesRoom, ht]
  · simp [makesRoom, ht]

/-! ## Documents that come back -/

variable {shown : DocumentSet q}

theorem mem_data {e : Path × Dictionary} :
    e ∈ shown.toList.map Document.data ↔ (shown.getDocument e.1).map Document.value = some e.2 := by
  rw [List.mem_map, Option.map_eq_some_iff]
  constructor
  · rintro ⟨doc, hd, rfl⟩
    exact ⟨doc, DocumentSet.mem_toList.mp hd, rfl⟩
  · rintro ⟨doc, hd, he⟩
    have hk : doc.key = e.1 := DocumentSet.getDocument_key hd
    exact ⟨doc, DocumentSet.mem_toList.mpr (hk ▸ hd), Prod.ext hk he⟩

theorem sorted_shown (shown : DocumentSet q) :
    (shown.toList.map Document.data).Pairwise q.Before := Query.sorted_data shown.sortedSet.sorted

theorem nodup_data (shown : DocumentSet q) : ((shown.toList.map Document.data).map Prod.fst).Nodup := by
  have hn : shown.index.documents.Nodup := List.Nodup.of_map _ shown.index.nodup
  have hp := ((List.perm_ext_iff_of_nodup shown.nodup_toList hn).mpr shown.agree).map Document.key
  rw [List.map_map]
  exact hp.nodup_iff.mpr shown.index.nodup

/-- A document with the same fields is settled with these. -/
theorem settled_same {old doc : Document} (hq : q.Matches doc = true) (hv : old.value = doc.value) :
    (view.settled (some old) doc).map Document.value = some doc.value := by
  unfold settled
  split
  · rw [matching, if_pos hq]
    rfl
  · exact congrArg some hv

/-- A pass over all documents that match leaves the fields of what is shown. -/
theorem Follows.data_subset {documents : DocumentMap} {all : DocumentSet q} (h : Follows documents shown)
    (hs : view.Settles shown (documents.filter q.Matches) all) :
    shown.toList.map Document.data ⊆ all.toList.map Document.data := by
  rintro ⟨key, v⟩ he
  obtain ⟨d, hd, hv⟩ := Option.map_eq_some_iff.mp (mem_data.mp he)
  dsimp only at hd hv
  subst hv
  rw [mem_data]
  by_cases hk : ∃ doc ∈ (documents.filter q.Matches).documents, doc.key = key
  · obtain ⟨doc, hdoc, rfl⟩ := hk
    dsimp only
    rw [hs.changed doc hdoc, hd]
    obtain ⟨hm, hq⟩ := DocumentMap.mem_filter.mp hdoc
    obtain ⟨stored, hf, -, hval⟩ := h _ d hd
    obtain rfl : doc = stored := Option.some.inj ((DocumentMap.find_eq.mpr ⟨hm, rfl⟩).symm.trans hf)
    by_cases hsame : d.value = doc.value
    · rw [settled_same hq hsame, hsame]
    · simp [settled, changeOf, matching, hq, hsame, hval.resolve_left hsame]
  · rw [hs.unchanged key fun doc hdoc he => hk ⟨doc, hdoc, he⟩, hd]
    rfl

/-- A document that a limit has cut does not return as it was: what has crowded it out is
still there. -/
theorem not_returned {documents changes : DocumentMap} {new shown all last : DocumentSet q}
    (hs : view.Settles view.documentSet changes new) (hl : shown.toList = q.limit.cut new.toList)
    (hf : Follows (documents.update changes) shown)
    (hs' : view.Settles shown ((documents.update changes).filter q.Matches) all)
    (hl' : last.toList = q.limit.cut all.toList)
    {key : Path} {old doc : Document} (ho : view.documentSet.getDocument key = some old)
    (hn : shown.getDocument key = none) (hd : last.getDocument key = some doc) : old.value ≠ doc.value := by
  intro hval
  have hkey : doc.key = key := DocumentSet.getDocument_key hd
  subst hkey
  have hall : all.getDocument doc.key = some doc :=
    DocumentSet.mem_toList.mp (Limit.cut_subset (hl' ▸ DocumentSet.mem_toList.mpr hd))
  -- the document is the store's
  obtain ⟨stored, hstored, hk⟩ : ∃ stored ∈ ((documents.update changes).filter q.Matches).documents,
    stored.key = doc.key := by
    by_contra hno
    rw [hs'.unchanged _ fun d hd he => hno ⟨d, hd, he⟩, hn] at hall
    cases hall
  obtain ⟨hm, hq⟩ := DocumentMap.mem_filter.mp hstored
  have hsame : stored = doc := by
    have := hs'.changed stored hstored
    rw [hk, hn, hall] at this
    have hset : view.settled none stored = some stored := by simp [settled, changeOf, matching, hq]
    exact (Option.some.inj (this.trans hset)).symm
  subst hsame
  -- it was among those that the first pass left to the limit, with the same fields
  have hnew : (stored.key, stored.value) ∈ new.toList.map Document.data := by
    rw [mem_data]
    by_cases hc : ∃ d ∈ changes.documents, d.key = stored.key
    · obtain ⟨d, hdc, hdk⟩ := hc
      have hfind := DocumentMap.find_update_of_mem hdc (m := documents)
      rw [hdk, DocumentMap.find_eq.mpr ⟨hm, rfl⟩] at hfind
      obtain rfl := Option.some.inj hfind
      dsimp only
      rw [hs.changed stored hdc, ho, settled_same hq hval]
    · dsimp only
      rw [hs.unchanged _ fun d hd he => hc ⟨d, hd, he⟩, ho]
      exact congrArg some hval
  have hcut : (stored.key, stored.value) ∉ q.limit.cut (new.toList.map Document.data) := by
    rw [← Limit.map_cut, ← hl, mem_data]
    dsimp only
    rw [hn]
    simp
  obtain ⟨n, hlimit, hlen, hin⟩ := Limit.cut_full (sorted_shown new) hnew hcut
  rw [← Limit.map_cut, ← hl] at hlen hin
  refine Limit.not_mem_cut (fun a b => SortedSet.asymm) (sorted_shown all) hlimit ?_
    (x := (stored.key, stored.value)) ?_
  · rw [← hlen]
    exact length_le_countP (nodup_data shown) fun e he =>
      ⟨e.2, hf.data_subset hs' he, decide_eq_true (hin e he)⟩
  · rw [← Limit.map_cut, ← hl', mem_data]
    dsimp only
    rw [hd]
    rfl

/-! ## New documents -/

/-- Nothing is noted of a view as it is. -/
theorem Marked.noted (h : view.Marked) : Noted view.documentSet (view.startChanges none) where
  changed _ := .same _
  keys _ _ hc := by cases hc
  matched _ _ hc := by cases hc
  matching := h.matching
  mutated := h.mutated

/-- In a first pass, every change of a key is its first. -/
theorem fresh_start (doc : Document) : view.Fresh view.documentSet (fun _ => False) ∅ doc where
  first _ _ _ := rfl
  returned hn d hd := by
    rw [hn] at hd
    cases hd

/-- What is noted of a view as documents of the store change: after one pass, or after a
second one over all documents that match. -/
structure Emitted (view : View q) (documents changes : DocumentMap) (c : ViewDocumentChanges q) : Prop where
  noted : Noted view.documentSet c
  needsRefill : c.needsRefill = false
  follows : Follows (documents.update changes) c.documentSet
  settled : ∃ new, view.Settles view.documentSet changes new ∧
    (c.documentSet.toList = q.limit.cut new.toList ∧ view.needsRefill view.documentSet changes = false ∨
      ∃ shown all, shown.toList = q.limit.cut new.toList ∧
        view.Settles shown ((documents.update changes).filter q.Matches) all ∧
        c.documentSet.toList = q.limit.cut all.toList)

theorem emitted (changes : DocumentMap) (targetChange : Option TargetChange)
    {documents : DocumentMap} (hm : view.Marked)
    (hf : Follows documents view.documentSet) :
    ∃ c, view.emitNewSnapshot (documents.update changes) changes targetChange =
      view.applyChanges c targetChange ∧
      view.Emitted documents changes c := by
  obtain ⟨c₁, new, h₁, hn₁, hs₁, hl₁, hr₁⟩ := computeDocumentChanges_noted hm changes none hm.noted rfl
    (fun doc _ => fresh_start doc) fun h => by cases h
  have hf₁ : Follows (documents.update changes) c₁.documentSet :=
    (hf.settles hs₁).subset fun d hd => Limit.cut_subset (hl₁ ▸ hd)
  cases hneeds : view.needsRefill view.documentSet changes with
  | false =>
    have hr : c₁.needsRefill = false := hr₁.trans hneeds
    exact ⟨c₁, by simp [emitNewSnapshot, h₁, hr], hn₁, hr, hf₁, new, hs₁, .inl ⟨hl₁, hneeds⟩⟩
  | true =>
    have hr : c₁.needsRefill = true := hr₁.trans hneeds
    -- what the first pass does not show may be noted as removed
    have hstart : NotedUnless view.documentSet (fun key => c₁.documentSet.getDocument key = none)
        (view.startChanges (some c₁)) :=
      { hn₁.mono (fun _ => False.elim) with }
    have hfresh : ∀ doc ∈ ((documents.update changes).filter q.Matches).documents,
        view.Fresh c₁.documentSet (fun key => c₁.documentSet.getDocument key = none) c₁.changeSet doc :=
          fun doc hdoc =>
      { first := fun change hch ht => by
          rcases hf₁.change_type hdoc hch with h | h <;> rw [h] at ht <;> rcases ht with ht | ht <;> cases ht
        returned := fun h _ _ => h }
    obtain ⟨c₂, all, h₂, hn₂, hs₂, hl₂, hr₂⟩ := computeDocumentChanges_noted hm
      ((documents.update changes).filter q.Matches) (some c₁) hstart rfl hfresh fun _ => hf₁.needsRefill
    have hnoted : Noted view.documentSet c₂ :=
      { hn₂ with
        changed := fun key => (hn₂.changed key).changed fun hn _ _ ho hd =>
          not_returned hs₁ hl₁ hf₁ hs₂ hl₂ ho hn hd }
    refine ⟨c₂, by simp [emitNewSnapshot, h₁, hr, h₂], hnoted, hr₂.trans hf₁.needsRefill, ?_, new, hs₁,
      .inr ⟨c₁.documentSet, all, hl₁, hs₂, hl₂⟩⟩
    exact (hf₁.refilled hs₂).subset fun d hd => Limit.cut_subset (hl₂ ▸ hd)

/-- The documents of a new view. -/
theorem initialized (documents : DocumentMap) (remoteKeys : DocumentKeySet)
    (targetChange : Option TargetChange) :
    ∃ c : ViewDocumentChanges q, initializeView q documents remoteKeys targetChange =
        (new remoteKeys).applyChanges c targetChange ∧ Noted .empty c ∧ c.needsRefill = false ∧
      Follows documents c.documentSet ∧ ∃ all : DocumentSet q,
        (new remoteKeys).Settles .empty (documents.filter q.Matches) all ∧
        c.documentSet.toList = q.limit.cut all.toList := by
  have hm : (new remoteKeys : View q).Marked := by
    refine ⟨fun key => ⟨fun h => (by cases h), ?_⟩, .empty⟩
    rintro ⟨_, hd, -⟩
    cases hd
  have hf : Follows documents (new remoteKeys : View q).documentSet := fun _ _ hd => by cases hd
  obtain ⟨c, all, hc, hn, hs, hl, hr⟩ :=
    computeDocumentChanges_noted hm (documents.filter q.Matches) none hm.noted rfl
    (fun doc _ => fresh_start doc) fun h => by cases h
  refine ⟨c, by simp [initializeView, hc], hn, hr.trans hf.needsRefill, ?_, all, hs, hl⟩
  exact (hf.refilled hs).subset fun d hd => Limit.cut_subset (hl ▸ hd)

end View

end BlindBoard.Firestore
