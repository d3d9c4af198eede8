import BlindBoard.Proof.Refill

/-!
# A view shows the results of its query

If a view shows the results of the query on the documents of the local store
(`Shows`), it does so after some of these have changed, unless it holds one of them
back (`Emitted.shows`). Where a limit is full and no document leaves it, a document
of the store that is not shown stays outside of it; where one leaves it, the refill
finds all documents that match.
-/

namespace BlindBoard.Firestore

open Lib

namespace View

variable {q : Query} {view : View q} {documents changes : DocumentMap} {shown new : DocumentSet q}

/-- The set shows the results of the query. -/
def Shows (documents : DocumentMap) (shown : DocumentSet q) : Prop :=
  shown.toList.map Document.data = (q.results documents).map Document.data

/-- The view waits for the service to send one of the documents again. -/
def holdsBack (view : View q) (changes : DocumentMap) : Bool :=
  changes.documents.any fun doc =>
    (view.documentSet.getDocument doc.key).any fun old =>
      q.Matches doc && old.value ≠ doc.value && shouldWaitForSyncedDocument doc old

/-! ## What is shown under a key -/

theorem mem_data_listing {e : Path × Dictionary} :
    e ∈ (q.listing documents).map Document.data ↔ ∃ doc, documents.find e.1 = some doc ∧
    q.Matches doc = true ∧ doc.value = e.2 := by
  rw [List.mem_map]
  constructor
  · rintro ⟨doc, hd, rfl⟩
    obtain ⟨hm, hq⟩ := Query.mem_listing.mp hd
    exact ⟨doc, DocumentMap.find_eq.mpr ⟨hm, rfl⟩, hq, rfl⟩
  · rintro ⟨doc, hf, hq, hv⟩
    obtain ⟨hm, hk⟩ := DocumentMap.find_eq.mp hf
    exact ⟨doc, Query.mem_listing.mpr ⟨hm, hq⟩, Prod.ext hk hv⟩

theorem sorted_listing (documents : DocumentMap) :
    ((q.listing documents).map Document.data).Pairwise q.Before :=
  Query.sorted_data (Query.sorted_listing documents)

theorem shows_iff : Shows documents shown ↔
    shown.toList.map Document.data = q.limit.cut ((q.listing documents).map Document.data) := by
  rw [Shows, Query.results, Limit.map_cut]

theorem Shows.subset (h : Shows documents shown) :
    shown.toList.map Document.data ⊆ (q.listing documents).map Document.data := by
  rw [shows_iff.mp h]
  exact Limit.cut_subset

/-- A document that is not held back is settled with its fields. -/
theorem settled_value {old : Option Document} {doc : Document}
    (h : old.any (fun o => q.Matches doc && o.value ≠ doc.value && shouldWaitForSyncedDocument doc o) =
      false) :
    (view.settled old doc).map Document.value = (matching q doc).map Document.value := by
  unfold settled
  split
  · rfl
  next hch =>
    cases hm : matching q doc with
    | none =>
      rw [hm] at hch
      cases old with
      | none => rfl
      | some o => exact absurd rfl hch
    | some new =>
      rw [hm] at hch
      obtain ⟨rfl, hq⟩ := matching_key hm
      cases old with
      | none => exact absurd rfl hch
      | some o =>
        by_cases hv : o.value = new.value
        · exact congrArg some hv
        · have hw : shouldWaitForSyncedDocument new o = false := by simpa [hq, hv] using h
          exact absurd (by simp [changeOf, hv, hw]) hch

theorem settles_mem (hs : view.Settles view.documentSet changes new)
    (hb : view.holdsBack changes = false) {doc : Document}
    (hd : doc ∈ changes.documents) (v : Dictionary) :
    (doc.key, v) ∈ new.toList.map Document.data ↔ q.Matches doc = true ∧ doc.value = v := by
  have hv : (view.settled (view.documentSet.getDocument doc.key) doc).map Document.value =
    (matching q doc).map Document.value :=
    settled_value (by simpa using List.any_eq_false.mp hb doc hd)
  rw [mem_data]
  dsimp only
  rw [hs.changed doc hd, hv, matching]
  split
  next h => simp [h]
  next h => simp [h]

theorem settles_mem_of_ne (hs : view.Settles view.documentSet changes new) {e : Path × Dictionary}
    (hne : ∀ doc ∈ changes.documents, doc.key ≠ e.1) :
    e ∈ new.toList.map Document.data ↔ e ∈ view.documentSet.toList.map Document.data := by
  rw [mem_data, mem_data, hs.unchanged _ hne]

theorem update_mem {doc : Document} (hd : doc ∈ changes.documents) (v : Dictionary) :
    (doc.key, v) ∈ (q.listing (documents.update changes)).map Document.data ↔
    q.Matches doc = true ∧ doc.value = v := by
  rw [mem_data_listing]
  dsimp only
  rw [DocumentMap.find_update_of_mem hd]
  simp

theorem update_mem_of_ne {e : Path × Dictionary} (hne : ∀ doc ∈ changes.documents, doc.key ≠ e.1) :
    e ∈ (q.listing (documents.update changes)).map Document.data ↔
    e ∈ (q.listing documents).map Document.data := by
  rw [mem_data_listing, mem_data_listing, DocumentMap.find_update_of_ne hne]

/-- What is settled is among what matches. -/
theorem settles_subset (h : Shows documents view.documentSet) (hs : view.Settles view.documentSet changes new)
    (hb : view.holdsBack changes = false) :
    new.toList.map Document.data ⊆ (q.listing (documents.update changes)).map Document.data := by
  rintro ⟨key, v⟩ he
  by_cases hk : ∃ doc ∈ changes.documents, doc.key = key
  · obtain ⟨doc, hd, rfl⟩ := hk
    exact (update_mem hd v).mpr ((settles_mem hs hb hd v).mp he)
  · have hne : ∀ doc ∈ changes.documents, doc.key ≠ key := fun doc hd he => hk ⟨doc, hd, he⟩
    exact (update_mem_of_ne hne).mpr (h.subset ((settles_mem_of_ne hs hne).mp he))

/-- A pass over all documents that match finds them all. -/
theorem refilled_data (h : shown.toList.map Document.data ⊆ (q.listing documents).map Document.data)
    (hs : view.Settles shown (documents.filter q.Matches) new) :
    new.toList.map Document.data = (q.listing documents).map Document.data := by
  refine eq_of_mem_iff (fun a b => SortedSet.asymm) (sorted_shown new) (sorted_listing documents) fun e => ?_
  rw [mem_data, mem_data_listing]
  by_cases hk : ∃ doc ∈ (documents.filter q.Matches).documents, doc.key = e.1
  · obtain ⟨doc, hd, he⟩ := hk
    obtain ⟨hm, hq⟩ := DocumentMap.mem_filter.mp hd
    have hf : documents.find e.1 = some doc := DocumentMap.find_eq.mpr ⟨hm, he⟩
    -- what is shown under the key is the document of the store
    have hold : (shown.getDocument doc.key).any
        (fun o => q.Matches doc && o.value ≠ doc.value && shouldWaitForSyncedDocument doc o) = false := by
      cases hg : shown.getDocument doc.key with
      | none => rfl
      | some o =>
        have ho : (e.1, o.value) ∈ shown.toList.map Document.data := mem_data.mpr (by rw [← he, hg]; rfl)
        obtain ⟨d, hf', -, hv⟩ := mem_data_listing.mp (h ho)
        obtain rfl : doc = d := Option.some.inj (hf.symm.trans hf')
        have hv' : doc.value = o.value := hv
        simp [hv']
    rw [← he, hs.changed doc hd, settled_value hold, show matching q doc = some doc from if_pos hq, he, hf]
    simp [hq]
  · have hne : ∀ doc ∈ (documents.filter q.Matches).documents, doc.key ≠ e.1 :=
      fun doc hd he => hk ⟨doc, hd, he⟩
    have hnone : ¬ ∃ doc, documents.find e.1 = some doc ∧ q.Matches doc = true ∧ doc.value = e.2 := by
      rintro ⟨doc, hf, hq, -⟩
      obtain ⟨hm, he⟩ := DocumentMap.find_eq.mp hf
      exact hne doc (DocumentMap.mem_filter.mpr ⟨hm, hq⟩) he
    rw [hs.unchanged _ hne]
    refine iff_of_false (fun hv => hnone ?_) hnone
    exact mem_data_listing.mp (h (mem_data.mpr hv))

/-! ## A limit that stays full -/

/-- A change that leaves no room in a full limit removes no document, and moves none outside of it. -/
theorem inside_of_not_makesRoom {n : ℕ} (hl : q.limit.limit = some n) (hn : shown.toList.length = n)
    (hne : shown.toList ≠ [])
    {change : DocumentViewChange}
    (h : makesRoom q (lastDocInLimit shown) (firstDocInLimit shown) change = false) :
    change.type ≠ .removed ∧ (change.type = .modified → ∃ e ∈ shown.toList.map Document.data,
      ¬ q.limit.Inner q.Before e change.document.data) := by
  have hsize : shown.size = n := shown.length_toList.symm.trans hn
  cases hq : q.limit with
  | none =>
    rw [hq] at hl
    cases hl
  | first limit =>
    rw [hq] at hl
    cases hl
    have hlast : shown.getLastDocument = some (shown.toList.getLast hne) := List.getLast?_eq_some_getLast hne
    have he : lastDocInLimit shown = some (shown.toList.getLast hne) := by
      simp only [lastDocInLimit, hq, hsize, if_true]
      exact hlast
    rw [he] at h
    refine ⟨fun ht => by simp [makesRoom, ht] at h, fun ht =>
      ⟨_, List.mem_map_of_mem (List.getLast_mem hne), ?_⟩⟩
    intro hlt
    have hgt := Std.OrientedCmp.gt_iff_lt.mpr (Query.compareData_data.symm.trans hlt)
    simp [makesRoom, ht, hgt] at h
  | last limit =>
    rw [hq] at hl
    cases hl
    have hfirst : shown.getFirstDocument = some (shown.toList.head hne) := List.head?_eq_some_head hne
    have he : firstDocInLimit shown = some (shown.toList.head hne) := by
      simp only [firstDocInLimit, hq, hsize, if_true]
      exact hfirst
    rw [he] at h
    refine ⟨fun ht => by simp [makesRoom, ht] at h, fun ht =>
      ⟨_, List.mem_map_of_mem (List.head_mem hne), ?_⟩⟩
    intro hlt
    have hlt' := Query.compareData_data.symm.trans hlt
    simp [makesRoom, ht, hlt'] at h

/-- Where no refill is needed, what is shown in a full limit is inside of what is not
shown, also after it has changed. -/
theorem inside_of_settles (hs : view.Settles view.documentSet changes new)
    (hb : view.holdsBack changes = false)
    (hr : view.needsRefill view.documentSet changes = false) {n : ℕ} (hl : q.limit.limit = some n)
    (hn : view.documentSet.toList.length = n) {x : Path × Dictionary}
    (hx : ∀ a ∈ view.documentSet.toList.map Document.data, q.limit.Inner q.Before a x) {e : Path × Dictionary}
    (he : e ∈ view.documentSet.toList.map Document.data) :
    ∃ v, (e.1, v) ∈ new.toList.map Document.data ∧ q.limit.Inner q.Before (e.1, v) x := by
  by_cases hk : ∃ doc ∈ changes.documents, doc.key = e.1
  · obtain ⟨doc, hd, hde⟩ := hk
    obtain ⟨old, hold, hv⟩ := Option.map_eq_some_iff.mp (mem_data.mp he)
    rw [← hde] at hold
    have hne : view.documentSet.toList ≠ [] := by
      intro hnil
      rw [hnil] at he
      cases he
    -- the change that the document makes leaves no room
    have hleaves : ∀ change, view.changeOf (some old) (matching q doc) = some change →
        makesRoom q (lastDocInLimit view.documentSet) (firstDocInLimit view.documentSet) change = false := by
      intro change hch
      have := List.any_eq_false.mp hr doc hd
      rw [hold, hch] at this
      simpa using this
    cases hm : matching q doc with
    | none =>
      obtain ⟨hrem, -⟩ := inside_of_not_makesRoom hl hn hne (hleaves ⟨old, .removed⟩ (by rw [hm]; rfl))
      exact absurd rfl hrem
    | some d =>
      obtain ⟨rfl, hq⟩ := matching_key hm
      refine ⟨d.value, hde ▸ (settles_mem hs hb hd d.value).mpr ⟨hq, rfl⟩, ?_⟩
      rw [← hde]
      by_cases hval : old.value = d.value
      · have hsame : (d.key, d.value) = e := Prod.ext hde (hval.symm.trans hv)
        rw [hsame]
        exact hx e he
      · have hw : shouldWaitForSyncedDocument d old = false := by
          have := List.any_eq_false.mp hb d hd
          rw [hold] at this
          simpa [hq, hval] using this
        obtain ⟨-, hmod⟩ :=
          inside_of_not_makesRoom hl hn hne (hleaves ⟨d, .modified⟩ (by simp [hm, changeOf, hval, hw]))
        obtain ⟨a, ha, hna⟩ := hmod rfl
        exact Limit.Inner.of_not (hx a ha) hna
  · have hne : ∀ doc ∈ changes.documents, doc.key ≠ e.1 := fun doc hd he => hk ⟨doc, hd, he⟩
    exact ⟨e.2, (settles_mem_of_ne hs hne).mpr he, hx e he⟩

/-- A pass that needs no refill shows the results. -/
theorem settled_shows (h : Shows documents view.documentSet) (hs : view.Settles view.documentSet changes new)
    (hb : view.holdsBack changes = false) (hr : view.needsRefill view.documentSet changes = false) :
    q.limit.cut (new.toList.map Document.data) =
      q.limit.cut ((q.listing (documents.update changes)).map Document.data) := by
  refine Limit.cut_congr (fun a b => SortedSet.asymm) (sorted_shown new)
    (sorted_listing _) (settles_subset h hs hb) fun x hx hxn => ?_
  -- what is not shown has not changed
  have hne : ∀ doc ∈ changes.documents, doc.key ≠ x.1 := by
    intro doc hd he
    obtain ⟨key, v⟩ := x
    dsimp only at he
    subst he
    exact hxn ((settles_mem hs hb hd v).mpr ((update_mem hd v).mp hx))
  have hx₀ := (update_mem_of_ne hne).mp hx
  have hxn₀ : x ∉ view.documentSet.toList.map Document.data :=
    fun hx' => hxn ((settles_mem_of_ne hs hne).mpr hx')
  rw [shows_iff.mp h] at hxn₀
  obtain ⟨n, hl, hlen, hin⟩ := Limit.cut_full (sorted_listing documents) hx₀ hxn₀
  rw [← shows_iff.mp h] at hlen hin
  refine ⟨n, hl, ?_⟩
  rw [← hlen]
  refine length_le_countP (nodup_data view.documentSet) fun e he => ?_
  obtain ⟨v, hv, hi⟩ := inside_of_settles hs hb hr hl (by rw [← hlen, List.length_map]) hin he
  exact ⟨v, hv, decide_eq_true hi⟩

/-- As documents of the store change, a view goes on showing the results, unless it holds one back. -/
theorem Emitted.shows {c : ViewDocumentChanges q} (he : view.Emitted documents changes c)
    (h : Shows documents view.documentSet)
    (hb : view.holdsBack changes = false) : Shows (documents.update changes) c.documentSet := by
  obtain ⟨new, hs, hlist⟩ := he.settled
  rw [shows_iff]
  rcases hlist with ⟨hl, hneeds⟩ | ⟨shown, all, hl, hall, hl'⟩
  · rw [hl, Limit.map_cut]
    exact settled_shows h hs hb hneeds
  · have hsub : shown.toList.map Document.data ⊆
      (q.listing (documents.update changes)).map Document.data := by
      rw [hl, Limit.map_cut]
      exact fun e he => settles_subset h hs hb (Limit.cut_subset he)
    rw [hl', Limit.map_cut, refilled_data hsub hall]

end View

end BlindBoard.Firestore
