import BlindBoard.Impl.App

/-!
# What the names in the cloud are

A collection and a Storage folder are one segment (`COLLECTION_BOARD_eq`,
`imageReference_eq`), so for the text of a UUID a word's document is the
collection's name and that text, an image is the folder's name and that text,
and a comment is two segments below its word's document. Documents of different
words, images of different names and comments are therefore at different paths.
-/

namespace BlindBoard

open Lib

/-- The text of a UUID. -/
def IsUUID (t : String) : Prop := ∃ u : UUID, u.uuidString = t

theorem UUID.isUUID (u : UUID) : IsUUID u.uuidString := ⟨u, rfl⟩

theorem IsUUID.segments {t : String} (h : IsUUID t) : segments t = [t] := by
  obtain ⟨u, rfl⟩ := h
  exact segments_single u.noSlash u.ne_empty

/-- The collection's name. -/
def collectionName (uid : Option UUID) : String := (uid.map UUID.uuidString).getD "noneDevice"

/-- The Storage folder's name. -/
def folderName (uid : Option UUID) : String := (uid.map UUID.uuidString).getD "error"

theorem COLLECTION_BOARD_eq (uid : Option UUID) : COLLECTION_BOARD uid = [collectionName uid] := by
  cases uid with
  | none => decide
  | some u => exact u.isUUID.segments

theorem imageReference_eq (uid : Option UUID) (fileName : String) :
    imageReference uid fileName = folderName uid :: segments fileName := by
  cases uid with
  | none =>
    have hs : '/' ∉ "error".toList := by decide
    exact segments_dir hs (by decide) fileName
  | some u => exact segments_dir u.noSlash u.ne_empty fileName

theorem imageReference_uuid (uid : Option UUID) {fileName : String} (h : IsUUID fileName) :
    imageReference uid fileName = [folderName uid, fileName] := by
  rw [imageReference_eq, h.segments]

theorem wordDocument_uuid (uid : Option UUID) {word : String} (h : IsUUID word) :
    wordDocument uid word = COLLECTION_BOARD uid ++ [word] := by
  rw [wordDocument, h.segments]

theorem commentCollection_uuid (uid : Option UUID) {word : String} (h : IsUUID word) :
    commentCollection uid word = COLLECTION_BOARD uid ++ [word, "comments"] := by
  rw [commentCollection, wordDocument_uuid uid h]
  simp

/-- A comment is no document of the collection of words. -/
theorem comment_ne_word (uid : Option UUID) {word id autoID : String} (h : IsUUID word) :
    commentCollection uid word ++ [autoID] ≠ COLLECTION_BOARD uid ++ [id] := by
  simp [commentCollection_uuid uid h]

/-! ## Requests are within the collection or the folder of their launch -/

/-- The path of a request is below the collection or the folder of `uid`. -/
def Request.Within (uid : Option UUID) : Request → Prop
  | .setData p _ | .deleteDocument p | .getDocuments p _ _ => COLLECTION_BOARD uid <+: p
  | .putData p _ | .downloadURL p | .deleteObject p => imageReference uid "" <+: p

theorem imageReference_prefix (uid : Option UUID) (fileName : String) :
    imageReference uid "" <+: imageReference uid fileName := by
  rw [imageReference_eq, imageReference_eq]
  exact List.prefix_append [folderName uid] _

theorem Call.request_within {uid : Option UUID} {call : Call} {r : Request} (h : call.request uid = some r) :
    r.Within uid := by
  cases call <;> cases h
  case putData | downloadURL | deleteObject => exact imageReference_prefix uid _
  case loadData => exact List.prefix_rfl
  case setData | deleteDocument => exact List.prefix_append ..
  case reloadComment => exact (List.prefix_append ..).trans (List.prefix_append ..)
  case addDocument =>
    exact ((List.prefix_append ..).trans (List.prefix_append ..)).trans (List.prefix_append ..)

theorem collectionName_inj {u v : Option UUID} (h : collectionName u = collectionName v) : u = v := by
  have short (u : UUID) : u.uuidString ≠ "noneDevice" := fun e => by
    have := u.length
    rw [e] at this
    cases this
  cases u <;> cases v
  · rfl
  · exact absurd h.symm (short _)
  · exact absurd h (short _)
  · exact congrArg some (UUID.ext h)

theorem folderName_inj {u v : Option UUID} (h : folderName u = folderName v) : u = v := by
  have short (u : UUID) : u.uuidString ≠ "error" := fun e => by
    have := u.length
    rw [e] at this
    cases this
  cases u <;> cases v
  · rfl
  · exact absurd h.symm (short _)
  · exact absurd h (short _)
  · exact congrArg some (UUID.ext h)

/-- Different identifiers name different parts. -/
theorem documents_apart {u v : Option UUID} {p : Path} (h : COLLECTION_BOARD u <+: p)
    (h' : COLLECTION_BOARD v <+: p) :
    u = v := by
  rw [COLLECTION_BOARD_eq] at h h'
  obtain ⟨q, rfl⟩ := h
  obtain ⟨q', h'⟩ := h'
  exact collectionName_inj (List.cons.inj h').1.symm

theorem objects_apart {u v : Option UUID} {p : Path} (h : imageReference u "" <+: p)
    (h' : imageReference v "" <+: p) :
    u = v := by
  rw [imageReference_eq] at h h'
  obtain ⟨q, rfl⟩ := h
  obtain ⟨q', h'⟩ := h'
  exact folderName_inj (List.cons.inj h').1.symm

end BlindBoard
