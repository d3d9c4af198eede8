import BlindBoard.Lib.Path
import BlindBoard.Lib.Store
import BlindBoard.Impl.Models

/-!
# Firestore and Storage

What the services hold and how they serve one request. Documents and objects
are named by paths: a document of a collection is the collection's path and
one more segment, and its subcollections are paths below its own. `serve`
answers a request that fails with `failed`, and leaves the cloud as it was;
otherwise

* `setData` replaces the document at its path, whether or not there is a
  document at the path's parent;
* `deleteDocument` removes one document, and no document below it;
* `getDocuments` lists the documents of one collection that have the field,
  in its order, ties broken by document ID in the direction of the sort;
* `downloadURL` and `deleteObject` fail when there is no such object.
-/

namespace BlindBoard

open Lib

/-- The bytes of a file. -/
abbrev Data := List UInt8

/-- A stored file, with the download URL it was given when it was uploaded. -/
structure Object where
  data : Data
  url : String
  deriving DecidableEq

structure Cloud where
  documents : Store Path Dictionary
  objects : Store Path Object

inductive Request where
  | setData (document : Path) (data : Dictionary)
  | deleteDocument (document : Path)
  | getDocuments (collection : Path) (field : String) (descending : Bool)
  | putData (object : Path) (data : Data)
  | downloadURL (object : Path)
  | deleteObject (object : Path)
  deriving DecidableEq

/-- What becomes of a request: it fails, or it is served (`url` is the download
URL that an uploaded object gets). -/
inductive Outcome where
  | failure
  | success (url : String)
  deriving DecidableEq

inductive Reply where
  | failed
  | done
  | documents (documents : List (Path × Dictionary))
  | url (url : String)
  deriving DecidableEq

/-- The value a query sorts by, then the document's ID. -/
def sortKey (field : String) (e : Path × Dictionary) : Lex (Lex (Int ⊕ String) × String) :=
  toLex (((e.2.lookup field).map FieldValue.key).getD (toLex (.inl 0)), e.1.getLastD "")

/-- The order of `order(by:descending:)`. -/
def Ordered (field : String) (descending : Bool) (a b : Path × Dictionary) : Prop :=
  if descending then sortKey field b ≤ sortKey field a else sortKey field a ≤ sortKey field b

instance (field : String) (descending : Bool) : DecidableRel (Ordered field descending) := fun a b =>
  inferInstanceAs (Decidable (if descending then sortKey field b ≤ sortKey field a
    else sortKey field a ≤ sortKey field b))

instance (field : String) (descending : Bool) : Std.Total (Ordered field descending) where
  total a b := by cases descending <;> exact le_total _ _

instance (field : String) (descending : Bool) : IsTrans (Path × Dictionary) (Ordered field descending) where
  trans a b c h₁ h₂ := by
    cases descending
    · exact le_trans h₁ h₂
    · exact le_trans h₂ h₁

/-- The document is one of the collection, not of a collection below it. -/
def inCollection (collection document : Path) : Bool := document ≠ [] && document.dropLast = collection

@[simp] theorem inCollection_append (collection : Path) (id : String) :
    inCollection collection (collection ++ [id]) = true := by
  simp [inCollection]

theorem inCollection_iff {collection document : Path} :
    inCollection collection document = true ↔ ∃ id, document = collection ++ [id] := by
  constructor
  · intro h
    simp only [inCollection, Bool.and_eq_true, decide_eq_true_eq] at h
    obtain ⟨hne, rfl⟩ := h
    exact ⟨document.getLast hne, (List.dropLast_concat_getLast hne).symm⟩
  · rintro ⟨id, rfl⟩
    exact inCollection_append collection id

/-- `collection.order(by: field, descending:).getDocuments` -/
def getDocuments (documents : Store Path Dictionary) (collection : Path)
    (field : String) (descending : Bool) :
    List (Path × Dictionary) :=
  Store.query (fun p d => inCollection collection p && (d.lookup field).isSome)
    (Ordered field descending) documents

/-- The cloud after a request, and the answer to it. -/
def Cloud.serve (cloud : Cloud) : Request → Outcome → Cloud × Reply
  | _, .failure => (cloud, .failed)
  | .setData p d, .success _ => ({ cloud with documents := cloud.documents.insert p d }, .done)
  | .deleteDocument p, .success _ => ({ cloud with documents := cloud.documents.erase p }, .done)
  | .getDocuments c field descending, .success _ =>
    (cloud, .documents (getDocuments cloud.documents c field descending))
  | .putData p data, .success url => ({ cloud with objects := cloud.objects.insert p ⟨data, url⟩ }, .done)
  | .downloadURL p, .success _ =>
    match cloud.objects.lookup p with
    | some o => (cloud, .url o.url)
    | none => (cloud, .failed)
  | .deleteObject p, .success _ =>
    match cloud.objects.lookup p with
    | some _ => ({ cloud with objects := cloud.objects.erase p }, .done)
    | none => (cloud, .failed)

theorem mem_getDocuments {documents : Store Path Dictionary} {collection p : Path} {field : String}
    {descending : Bool} {d : Dictionary} :
    (p, d) ∈ getDocuments documents collection field descending ↔
      documents.lookup p = some d ∧ inCollection collection p = true ∧ (d.lookup field).isSome = true := by
  rw [getDocuments, Store.mem_query, Bool.and_eq_true]

theorem nodup_getDocuments (documents : Store Path Dictionary) (collection : Path) (field : String)
    (descending : Bool) : (getDocuments documents collection field descending).Nodup :=
  (Store.keys_query documents).of_map

theorem sorted_getDocuments (documents : Store Path Dictionary) (collection : Path) (field : String)
    (descending : Bool) :
    (getDocuments documents collection field descending).Pairwise (Ordered field descending) :=
  Store.sorted_query documents

/-- The path of the document that a request changes. -/
def Request.document : Request → Option Path
  | .setData p _ | .deleteDocument p => some p
  | _ => none

/-- The path of the object that a request changes. -/
def Request.object : Request → Option Path
  | .putData p _ | .deleteObject p => some p
  | _ => none

/-- Serving a request changes no other document. -/
theorem serve_documents (cloud : Cloud) {r : Request} (o : Outcome) {p : Path} (h : r.document ≠ some p) :
    (cloud.serve r o).1.documents.lookup p = cloud.documents.lookup p := by
  cases o with
  | failure => cases r <;> rfl
  | success url =>
    cases r with
    | setData q d => exact AList.lookup_insert_ne fun e => h (by rw [e]; rfl)
    | deleteDocument q => exact AList.lookup_erase_ne fun e => h (by rw [e]; rfl)
    | downloadURL q | deleteObject q => simp only [Cloud.serve]; split <;> rfl
    | _ => rfl

/-- Serving a request changes no other object. -/
theorem serve_objects (cloud : Cloud) {r : Request} (o : Outcome) {p : Path} (h : r.object ≠ some p) :
    (cloud.serve r o).1.objects.lookup p = cloud.objects.lookup p := by
  cases o with
  | failure => cases r <;> rfl
  | success url =>
    cases r with
    | putData q d => exact AList.lookup_insert_ne fun e => h (by rw [e]; rfl)
    | downloadURL q => simp only [Cloud.serve]; split <;> rfl
    | deleteObject q =>
      simp only [Cloud.serve]
      split
      · exact AList.lookup_erase_ne fun e => h (by rw [e]; rfl)
      · rfl
    | _ => rfl

end BlindBoard
