import BlindBoard.Impl.System

/-!
# The abstract board

What the app is for, without screens, requests or paths: a board is the list
of the adds that were started, each with what has become of it so far, and the
word list is the adds whose word is written and not deleted. `Board.ofLog`
folds the events of a launch into its board. An event that concerns an add
only says which one it is (by the word's `uid`) and what happened to it; title
and content are those of the Save tap.
-/

namespace BlindBoard.Spec

/-- An add: the word saved, and what has become of it. -/
structure Entry where
  /-- The compose sheet whose Save tap started it. -/
  sheet : Nat
  title : String
  content : String
  uid : String
  /-- The name chosen for the image, once its upload has started. -/
  fileName : Option String
  /-- The download URL of the image, once it is uploaded. -/
  url : Option String
  /-- The time of the document, once it is written. -/
  writtenTime : Option String
  /-- The document has been deleted. -/
  deleted : Bool
  /-- The image has been deleted. -/
  imageDeleted : Bool
  deriving DecidableEq

namespace Entry

/-- The word of the Save tap. -/
def saved (e : Entry) : Word := ⟨e.title, e.content, e.uid, "", ""⟩

/-- The word of an add, with its own upload. -/
def word (e : Entry) : Word := ⟨e.title, e.content, e.uid, e.url.getD "", e.fileName.getD ""⟩

/-- The word is on the board. -/
def onBoard (e : Entry) : Bool := e.writtenTime.isSome && !e.deleted

/-- The image is in Storage. -/
def hasImage (e : Entry) : Bool := e.url.isSome && !e.imageDeleted

/-- The text a list is sorted by. -/
def time (e : Entry) : String := e.writtenTime.getD ""

/-- The document of an add, once it is written. -/
def document (e : Entry) : Dictionary := e.word.document e.time (e.url.getD "") (e.fileName.getD "")

@[simp] theorem word_uid (e : Entry) : e.word.uid = e.uid := rfl

@[simp] theorem ofDictionary_document (e : Entry) : Word.ofDictionary e.document = e.word := rfl

/-- What becomes of an add: what is known of it is not changed any more. -/
structure Later (e e' : Entry) : Prop where
  sheet : e'.sheet = e.sheet
  title : e'.title = e.title
  content : e'.content = e.content
  uid : e'.uid = e.uid
  fileName : ∀ f, e.fileName = some f → e'.fileName = some f
  url : ∀ u, e.url = some u → e'.url = some u
  writtenTime : ∀ t, e.writtenTime = some t → e'.writtenTime = some t
  deleted : e.deleted = true → e'.deleted = true
  imageDeleted : e.imageDeleted = true → e'.imageDeleted = true

theorem Later.refl (e : Entry) : Later e e := by
  constructor <;> simp

end Entry

abbrev Board := List Entry

namespace Board

/-- Changes the add of the word `uid`. -/
def update (b : Board) (uid : String) (g : Entry → Entry) : Board :=
  b.map fun e => if e.uid = uid then g e else e

def step (b : Board) : Event → Board
  | .saved sheet w => b ++ [⟨sheet, w.title, w.content, w.uid, none, none, none, false, false⟩]
  | .issued _ (.putData w fileName _) => b.update w.uid fun e => { e with fileName := some fileName }
  | .served _ (.putData w _ _) (.success url) => b.update w.uid fun e => { e with url := some url }
  | .served _ (.setData w writtenTime _ _) (.success _) =>
    b.update w.uid fun e => { e with writtenTime := some writtenTime }
  | .served _ (.deleteDocument _ uid) (.success _) => b.update uid fun e => { e with deleted := true }
  | .served _ (.deleteObject _ fileName) (.success _) =>
    b.map fun e => if e.fileName = some fileName then { e with imageDeleted := true } else e
  | _ => b

def ofLog (log : List Event) : Board := log.foldl step []

/-- The words on the board. -/
def present (b : Board) : List Entry := b.filter Entry.onBoard

@[simp] theorem ofLog_append (log : List Event) (e : Event) : ofLog (log ++ [e]) = (ofLog log).step e := by
  simp [ofLog]

theorem mem_update {b : Board} {uid : String} {g : Entry → Entry} {e : Entry} :
    e ∈ b.update uid g ↔ ∃ e' ∈ b, (if e'.uid = uid then g e' else e') = e := by
  simp [update]

theorem mem_update_of_ne {b : Board} {uid : String} {g : Entry → Entry}
    {e : Entry} (he : e ∈ b) (h : e.uid ≠ uid) :
    e ∈ b.update uid g := mem_update.mpr ⟨e, he, by simp [h]⟩

theorem mem_update_of_eq {b : Board} {uid : String} {g : Entry → Entry}
    {e : Entry} (he : e ∈ b) (h : e.uid = uid) :
    g e ∈ b.update uid g := mem_update.mpr ⟨e, he, by simp [h]⟩

theorem exists_update {b : Board} {uid : String} {g : Entry → Entry} {Q : Entry → Prop} :
    (∃ e ∈ b.update uid g, Q e) ↔ ∃ e ∈ b, Q (if e.uid = uid then g e else e) := by
  simp [update]

/-- A change that does not matter for `Q`. -/
theorem exists_update_congr {b : Board} {uid : String} {g : Entry → Entry} {Q : Entry → Prop}
    (h : ∀ e ∈ b, e.uid = uid → (Q (g e) ↔ Q e)) : (∃ e ∈ b.update uid g, Q e) ↔ ∃ e ∈ b, Q e := by
  rw [exists_update]
  refine exists_congr fun e => and_congr_right fun he => ?_
  split
  next hu => exact h e he hu
  · exact .rfl

/-- A change that makes `Q` true of the add `e₀`, which it was not true of. -/
theorem exists_update_new {b : Board} {g : Entry → Entry} {Q : Entry → Prop} (hu : (b.map Entry.uid).Nodup)
    {e₀ : Entry} (he₀ : e₀ ∈ b) (hQ : ¬ Q e₀) :
    (∃ e ∈ b.update e₀.uid g, Q e) ↔ (∃ e ∈ b, Q e) ∨ Q (g e₀) := by
  rw [exists_update]
  constructor
  · rintro ⟨e, he, hQe⟩
    split at hQe
    next h => exact .inr (List.inj_on_of_nodup_map hu he he₀ h ▸ hQe)
    · exact .inl ⟨e, he, hQe⟩
  · rintro (⟨e, he, hQe⟩ | h)
    · refine ⟨e, he, ?_⟩
      split
      next h => exact absurd (List.inj_on_of_nodup_map hu he he₀ h ▸ hQe) hQ
      · exact hQe
    · exact ⟨e₀, he₀, by rwa [if_pos rfl]⟩

/-- An add after a change is one that it does not concern, or a changed one. -/
theorem mem_update_cases {b : Board} {uid : String} {g : Entry → Entry} {e : Entry} (h : e ∈ b.update uid g) :
    (e ∈ b ∧ e.uid ≠ uid) ∨ ∃ e₀ ∈ b, e₀.uid = uid ∧ e = g e₀ := by
  obtain ⟨e₀, he, rfl⟩ := mem_update.mp h
  by_cases hu : e₀.uid = uid
  · exact .inr ⟨e₀, he, hu, if_pos hu⟩
  · exact .inl (by rw [if_neg hu]; exact ⟨he, hu⟩)

@[simp] theorem update_id (b : Board) (uid : String) : (b.update uid fun e => e) = b := by
  simp [update]

/-- A change that keeps the `uid` keeps the list of them. -/
theorem uids_update {b : Board} {uid : String} {g : Entry → Entry} (h : ∀ e, (g e).uid = e.uid) :
    (b.update uid g).map Entry.uid = b.map Entry.uid := by
  simp only [update, List.map_map, List.map_inj_left, Function.comp_apply]
  intro e _
  split <;> simp [h]

theorem uids_append {b : Board} {e : Entry} (hu : (b.map Entry.uid).Nodup) (hn : ∀ e' ∈ b, e'.uid ≠ e.uid) :
    ((b ++ [e]).map Entry.uid).Nodup := by
  rw [List.map_append, List.nodup_append]
  refine ⟨hu, by simp, ?_⟩
  simp only [List.mem_map, List.map_cons, List.map_nil, List.mem_singleton, forall_exists_index, and_imp]
  rintro _ e' he' rfl _ rfl
  exact hn e' he'

/-- One add for each `uid`. -/
theorem eq_of_uid {b : Board} (h : (b.map Entry.uid).Nodup) {e e' : Entry} (he : e ∈ b) (he' : e' ∈ b)
    (hu : e.uid = e'.uid) : e = e' := List.inj_on_of_nodup_map h he he' hu

/-- Every add is still there. -/
def Later (b b' : Board) : Prop := ∀ e ∈ b, ∃ e' ∈ b', Entry.Later e e'

theorem Later.refl (b : Board) : b.Later b := fun e he => ⟨e, he, .refl e⟩

theorem later_append (b b' : Board) : b.Later (b ++ b') := fun e he => ⟨e, List.mem_append_left _ he, .refl e⟩

theorem later_map {b : Board} {k : Entry → Entry} (h : ∀ e ∈ b, Entry.Later e (k e)) : b.Later (b.map k) :=
  fun e he => ⟨k e, List.mem_map_of_mem he, h e he⟩

theorem later_update {b : Board} {uid : String} {g : Entry → Entry}
    (h : ∀ e ∈ b, e.uid = uid → Entry.Later e (g e)) :
    b.Later (b.update uid g) := by
  refine later_map fun e he => ?_
  split
  next hu => exact h e he hu
  · exact .refl e

/-- The word of an add whose document was written, deleted or not. -/
def Wrote (b : Board) (w : Word) : Prop := ∃ e ∈ b, e.writtenTime.isSome = true ∧ e.word = w

/-- The board says what the log says: which words were saved, which images
uploaded for which word and under which name, which documents written, with
which of these images, and which documents and images deleted. -/
structure Agrees (log : List Event) (b : Board) : Prop where
  uids : (b.map Entry.uid).Nodup
  saved : ∀ sheet w, .saved sheet w ∈ log ↔ ∃ e ∈ b, e.sheet = sheet ∧ e.saved = w
  uploaded : ∀ w f u, (∃ t data, .served t (.putData w f data) (.success u) ∈ log) ↔
    ∃ e ∈ b, e.saved = w ∧ e.fileName = some f ∧ e.url = some u
  written : ∀ w time u f, (∃ t o, .served t (.setData w time u f) (.success o) ∈ log) ↔
    ∃ e ∈ b, e.saved = w ∧ e.writtenTime = some time ∧ e.url = some u ∧ e.fileName = some f
  deleted : ∀ uid, (∃ t screen o, .served t (.deleteDocument screen uid) (.success o) ∈ log) ↔
    ∃ e ∈ b, e.uid = uid ∧ e.deleted = true
  imageDeleted : ∀ f, (∃ t screen o, .served t (.deleteObject screen f) (.success o) ∈ log) ↔
    ∃ e ∈ b, e.fileName = some f ∧ e.imageDeleted = true

end Board

/-- What a log says of a listed word: it was saved, its image uploaded, its
document written with this image, and the document not deleted. -/
def Listed (log : List Event) (w : Word) : Prop :=
  ∃ saved : Word, w = { saved with imageUrl := w.imageUrl, imageFileName := w.imageFileName } ∧
    (∃ sheet, .saved sheet saved ∈ log) ∧
    (∃ t data, .served t (.putData saved w.imageFileName data) (.success w.imageUrl) ∈ log) ∧
    (∃ t time o, .served t (.setData saved time w.imageUrl w.imageFileName) (.success o) ∈ log) ∧
    ∀ t screen o, .served t (.deleteDocument screen w.uid) (.success o) ∉ log

end BlindBoard.Spec
