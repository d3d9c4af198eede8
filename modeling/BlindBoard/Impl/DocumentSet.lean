import Mathlib.Data.List.Nodup
import BlindBoard.Impl.Query

/-!
# Document sets

A `DocumentMap` has one document for each of its keys. A `DocumentSet` keeps its
documents twice, by their keys and in the order of a query; that they are the
same documents is part of it. What a set holds under a key after an operation is
said by `getDocument_put` and `getDocument_remove`, and its list is determined by
what it holds (`toList_eq`).

The source looks up the place of a document in the order, which fails hard where a
comparison does. An operation is `none` here where the document cannot be compared
with one of the set; it succeeds where the query matches all of them
(`Matching.insert_eq`, `Matching.erase_eq`).
-/

namespace BlindBoard.Firestore

open Lib

/-- Documents of different keys, as they are listed. -/
structure DocumentMap where
  documents : List Document
  nodup : (documents.map Document.key).Nodup

namespace DocumentMap

def empty : DocumentMap := ⟨[], .nil⟩

def find (m : DocumentMap) (key : Path) : Option Document := m.documents.find? fun doc => doc.key = key

def erase (m : DocumentMap) (key : Path) : DocumentMap :=
  ⟨m.documents.filter fun doc => doc.key ≠ key, m.nodup.sublist (List.filter_sublist.map _)⟩

theorem mem_erase {m : DocumentMap} {key : Path} {doc : Document} :
    doc ∈ (m.erase key).documents ↔ doc ∈ m.documents ∧ doc.key ≠ key := by
  simp [erase]

def insert (m : DocumentMap) (doc : Document) : DocumentMap where
  documents := doc :: (m.erase doc.key).documents
  nodup := by
    refine List.nodup_cons.mpr ⟨fun h => ?_, (m.erase doc.key).nodup⟩
    obtain ⟨d, hd, he⟩ := List.mem_map.mp h
    exact (mem_erase.mp hd).2 he

theorem mem_insert {m : DocumentMap} {doc d : Document} :
    d ∈ (m.insert doc).documents ↔ d = doc ∨ d ∈ m.documents ∧ d.key ≠ doc.key := by
  simp [insert, mem_erase]

/-- The documents that satisfy `p`. -/
def filter (m : DocumentMap) (p : Document → Bool) : DocumentMap :=
  ⟨m.documents.filter p, m.nodup.sublist (List.filter_sublist.map _)⟩

theorem mem_filter {m : DocumentMap} {p : Document → Bool} {doc : Document} :
    doc ∈ (m.filter p).documents ↔ doc ∈ m.documents ∧ p doc = true := List.mem_filter

/-- The documents after some of them have changed. -/
def update (m changes : DocumentMap) : DocumentMap where
  documents :=
    changes.documents ++ (m.documents.filter fun doc => doc.key ∉ changes.documents.map Document.key)
  nodup := by
    rw [List.map_append]
    refine List.nodup_append.mpr ⟨changes.nodup, m.nodup.sublist (List.filter_sublist.map _), ?_⟩
    rintro key hkey _ hk rfl
    obtain ⟨doc, hd, rfl⟩ := List.mem_map.mp hk
    obtain ⟨-, hne⟩ := List.mem_filter.mp hd
    exact absurd hkey (of_decide_eq_true hne)

variable {m : DocumentMap} {key : Path} {doc : Document}

theorem key_injective {d d' : Document} (h : d ∈ m.documents) (h' : d' ∈ m.documents)
    (he : d.key = d'.key) : d = d' :=
  List.inj_on_of_nodup_map m.nodup h h' he

theorem find_eq : m.find key = some doc ↔ doc ∈ m.documents ∧ doc.key = key := find_iff m.nodup

theorem find_none : m.find key = none ↔ ∀ doc ∈ m.documents, doc.key ≠ key := by
  simp [find]

theorem find_update_of_mem {changes : DocumentMap} (h : doc ∈ changes.documents) :
    (m.update changes).find doc.key = some doc :=
  find_eq.mpr ⟨List.mem_append_left _ h, rfl⟩

theorem find_update_of_ne {changes : DocumentMap} (h : ∀ doc ∈ changes.documents, doc.key ≠ key) :
    (m.update changes).find key = m.find key := by
  refine Option.ext fun doc => ?_
  rw [find_eq, find_eq]
  refine and_congr_left fun he => ?_
  subst he
  show doc ∈ changes.documents ++ _ ↔ _
  rw [List.mem_append, List.mem_filter]
  constructor
  · rintro (hd | ⟨hd, -⟩)
    · exact absurd rfl (h doc hd)
    · exact hd
  · intro hd
    refine .inr ⟨hd, decide_eq_true fun hk => ?_⟩
    obtain ⟨d, hd, he⟩ := List.mem_map.mp hk
    exact h d hd he

end DocumentMap

/-- `DocumentSet`, ordered as the query `q` orders. -/
structure DocumentSet (q : Query) where
  index : DocumentMap
  sortedSet : SortedSet q.totalOrder
  agree : ∀ doc, doc ∈ sortedSet ↔ doc ∈ index.documents

namespace DocumentSet

variable {q : Query}

def empty : DocumentSet q := ⟨.empty, .empty, fun _ => Iff.rfl⟩

def size (s : DocumentSet q) : ℕ := s.index.documents.length

/-- The documents in their order. -/
def toList (s : DocumentSet q) : List Document := s.sortedSet.toList

def getDocument (s : DocumentSet q) (key : Path) : Option Document := s.index.find key

def getFirstDocument (s : DocumentSet q) : Option Document := s.sortedSet.min

def getLastDocument (s : DocumentSet q) : Option Document := s.sortedSet.max

/-- Documents of a set are equal in the order if they have the same key. -/
theorem totalOrder_iff {s : DocumentSet q} {d d' : Document} (h : d ∈ s.index.documents)
    (h' : d' ∈ s.index.documents) :
    q.totalOrder d d' = .eq ↔ d.key = d'.key := by
  refine ⟨totalOrder_eq, fun he => ?_⟩
  rw [DocumentMap.key_injective h h' he]
  exact Std.ReflCmp.compare_self

def remove (s : DocumentSet q) (key : Path) : DocumentSet q :=
  match hd : s.getDocument key with
  | none => s
  | some doc =>
    { index := s.index.erase key
      sortedSet := s.sortedSet.erase doc
      agree := fun d => by
        obtain ⟨hdoc, rfl⟩ := DocumentMap.find_eq.mp hd
        rw [SortedSet.mem_erase, DocumentMap.mem_erase, s.agree]
        refine and_congr_right fun h => not_congr ?_
        rw [totalOrder_iff hdoc h]
        exact eq_comm }

theorem mem_remove {s : DocumentSet q} {key : Path} {doc : Document} :
    doc ∈ (s.remove key).index.documents ↔ doc ∈ s.index.documents ∧ doc.key ≠ key := by
  unfold remove
  split
  next hd => exact (and_iff_left_of_imp (DocumentMap.find_none.mp hd doc)).symm
  · exact DocumentMap.mem_erase

/-- The document takes the place of the one of its key, in the index and in the order. -/
def put (s : DocumentSet q) (doc : Document) : DocumentSet q where
  index := (s.remove doc.key).index.insert doc
  sortedSet := (s.remove doc.key).sortedSet.insert doc
  agree d := by
    rw [SortedSet.mem_insert, DocumentMap.mem_insert, (s.remove doc.key).agree]
    refine or_congr_right (and_congr_right fun h => ?_)
    have hne := (mem_remove.mp h).2
    exact iff_of_true (fun he => hne (totalOrder_eq he).symm) hne

theorem mem_put {s : DocumentSet q} {doc d : Document} :
    d ∈ (s.put doc).index.documents ↔ d = doc ∨ d ∈ s.index.documents ∧ d.key ≠ doc.key := by
  show d ∈ ((s.remove doc.key).index.insert doc).documents ↔ _
  rw [DocumentMap.mem_insert, mem_remove, and_assoc, and_self]

/-! ## Comparisons that fail -/

/-- No comparison of the document with one of the set fails. -/
def Comparable (s : DocumentSet q) (doc : Document) : Prop :=
  ∀ d ∈ s.toList, (q.comparator doc d).isSome = true

instance (s : DocumentSet q) (doc : Document) : Decidable (s.Comparable doc) :=
  inferInstanceAs (Decidable (∀ d ∈ s.toList, (q.comparator doc d).isSome = true))

def erase (s : DocumentSet q) (key : Path) : Option (DocumentSet q) :=
  match s.getDocument key with
  | none => some s
  | some doc => if s.Comparable doc then some (s.remove key) else none

def insert (s : DocumentSet q) (doc : Document) : Option (DocumentSet q) :=
  (s.erase doc.key).bind fun removed => if removed.Comparable doc then some (s.put doc) else none

/-- The query matches all documents of the set. -/
def Matching (s : DocumentSet q) : Prop := ∀ doc ∈ s.index.documents, q.Matches doc = true

variable {s t : DocumentSet q} {key : Path} {doc : Document}

theorem Matching.empty : (empty : DocumentSet q).Matching := fun _ h => by cases h

theorem Matching.remove (h : s.Matching) : (s.remove key).Matching := fun d hd => h d (mem_remove.mp hd).1

theorem Matching.put (h : s.Matching) (hd : q.Matches doc = true) : (s.put doc).Matching := by
  intro d hd'
  rcases mem_put.mp hd' with rfl | ⟨hd', -⟩
  · exact hd
  · exact h d hd'

theorem Matching.comparable (h : s.Matching) (hd : q.Matches doc = true) : s.Comparable doc := by
  intro d hd'
  rw [Query.comparator_of_matches hd (h d ((s.agree d).mp hd'))]
  rfl

theorem Matching.erase_eq (h : s.Matching) : s.erase key = some (s.remove key) := by
  cases hd : s.getDocument key with
  | none =>
    have hr : s.remove key = s := by
      unfold DocumentSet.remove
      split
      · rfl
      next hd' =>
        rw [hd] at hd'
        cases hd'
    simp only [erase, hd, hr]
  | some doc =>
    have hm : q.Matches doc = true := h doc (DocumentMap.find_eq.mp hd).1
    simp only [erase, hd, if_pos (h.comparable hm)]

theorem Matching.insert_eq (h : s.Matching) (hd : q.Matches doc = true) :
    s.insert doc = some (s.put doc) := by
  rw [insert, h.erase_eq, Option.bind_some, if_pos (h.remove.comparable hd)]

/-! ## What a set holds -/

theorem mem_toList : doc ∈ s.toList ↔ s.getDocument doc.key = some doc := by
  show doc ∈ s.sortedSet ↔ s.index.find doc.key = some doc
  rw [s.agree, DocumentMap.find_eq, and_iff_left rfl]

theorem getDocument_key (h : s.getDocument key = some doc) : doc.key = key := (DocumentMap.find_eq.mp h).2

theorem getDocument_remove {k : Path} :
    (s.remove key).getDocument k = if k = key then none else s.getDocument k := by
  refine Option.ext fun d => ?_
  show (s.remove key).index.find k = some d ↔ _
  rw [DocumentMap.find_eq, mem_remove]
  split
  next h =>
    subst h
    simp only [reduceCtorEq, iff_false]
    rintro ⟨⟨-, hne⟩, he⟩
    exact hne he
  next h =>
    rw [getDocument, DocumentMap.find_eq]
    constructor
    · rintro ⟨⟨hd, -⟩, he⟩
      exact ⟨hd, he⟩
    · rintro ⟨hd, rfl⟩
      exact ⟨⟨hd, h⟩, rfl⟩

theorem getDocument_put {k : Path} :
    (s.put doc).getDocument k = if k = doc.key then some doc else s.getDocument k := by
  refine Option.ext fun d => ?_
  show (s.put doc).index.find k = some d ↔ _
  rw [DocumentMap.find_eq, mem_put]
  split
  next h =>
    subst h
    constructor
    · rintro ⟨rfl | ⟨-, hne⟩, he⟩
      · rfl
      · exact absurd he hne
    · rintro ⟨⟩
      exact ⟨.inl rfl, rfl⟩
  next h =>
    rw [getDocument, DocumentMap.find_eq]
    constructor
    · rintro ⟨rfl | ⟨hd, -⟩, rfl⟩
      · exact absurd rfl h
      · exact ⟨hd, rfl⟩
    · rintro ⟨hd, rfl⟩
      exact ⟨.inr ⟨hd, h⟩, rfl⟩

/-- The list of a set is determined by what it holds. -/
theorem toList_eq (h : ∀ key, s.getDocument key = t.getDocument key) : s.toList = t.toList := by
  have hmem : s.sortedSet = t.sortedSet := SortedSet.eq_of_mem fun doc => by
    have hs : doc ∈ s.sortedSet ↔ s.getDocument doc.key = some doc := mem_toList
    have ht : doc ∈ t.sortedSet ↔ t.getDocument doc.key = some doc := mem_toList
    rw [hs, ht, h]
  exact congrArg SortedSet.toList hmem

theorem nodup_toList (s : DocumentSet q) : s.toList.Nodup := s.sortedSet.nodup

theorem length_toList (s : DocumentSet q) : s.toList.length = s.size := by
  have hn : s.index.documents.Nodup := List.Nodup.of_map _ s.index.nodup
  exact ((List.perm_ext_iff_of_nodup s.nodup_toList hn).mpr s.agree).length_eq

theorem toList_remove (h : s.getDocument key = some doc) :
    (s.remove key).toList = (s.sortedSet.erase doc).toList := by
  unfold remove
  split
  next hn =>
    rw [h] at hn
    cases hn
  next d hd =>
    rw [h] at hd
    cases hd
    rfl

/-- Without its last document, a set is its list without it. -/
theorem remove_last (h : s.getLastDocument = some doc) :
    s.getDocument doc.key = some doc ∧ (s.remove doc.key).toList = s.toList.dropLast := by
  have hd : s.getDocument doc.key = some doc := mem_toList.mp (List.mem_of_getLast? h)
  exact ⟨hd, (toList_remove hd).trans (SortedSet.erase_max h)⟩

/-- Without its first document, a set is its list without it. -/
theorem remove_first (h : s.getFirstDocument = some doc) :
    s.getDocument doc.key = some doc ∧ (s.remove doc.key).toList = s.toList.tail := by
  have hd : s.getDocument doc.key = some doc := mem_toList.mp (List.mem_of_head? h)
  exact ⟨hd, (toList_remove hd).trans (SortedSet.erase_min h)⟩

end DocumentSet

end BlindBoard.Firestore
