import Mathlib.Data.Sum.Order
import Mathlib.Data.Prod.Lex
import Mathlib.Data.String.Basic

/-!
# The app's data: UUIDs, dictionaries, words and comments

A Firestore document is a dictionary `[String: Any]`. `Word` and `Comment` are
written under hand-chosen keys (`Word.document`, `Comment.document`) and read
back by `init(dictionary:)` (`Word.ofDictionary`, `Comment.ofDictionary`), which
gives `""` for a key that is missing or not a text.
-/

namespace BlindBoard

/-- A UUID, as the text of `uuidString`: 36 characters, none of them a slash. -/
structure UUID where
  uuidString : String
  noSlash : '/' ∉ uuidString.toList
  length : uuidString.length = 36
  deriving DecidableEq

theorem UUID.ext {u v : UUID} (h : u.uuidString = v.uuidString) : u = v := by
  cases u; cases v; cases h; rfl

theorem UUID.ne_empty (u : UUID) : u.uuidString ≠ "" := fun h => by
  have := u.length
  simp [h] at this

/-- The values the app stores under `Any`, and a number as another type that
Firestore can hold. -/
inductive FieldValue where
  | integer (n : Int)
  | string (s : String)
  deriving DecidableEq, Repr

/-- Firestore's order of values: numbers before texts, texts lexicographically. -/
def FieldValue.key : FieldValue → Lex (Int ⊕ String)
  | .integer n => toLex (.inl n)
  | .string s => toLex (.inr s)

/-- `[String: Any]` -/
abbrev Dictionary := List (String × FieldValue)

/-- `dictionary[key] as? String ?? ""` -/
def Dictionary.string (dictionary : Dictionary) (key : String) : String :=
  match dictionary.lookup key with
  | some (.string s) => s
  | _ => ""

structure Word where
  title : String
  content : String
  uid : String
  imageUrl : String
  imageFileName : String
  deriving DecidableEq, Repr

/-- `Word.init(dictionary:)` -/
def Word.ofDictionary (dictionary : Dictionary) : Word where
  title := dictionary.string "testTitle"
  content := dictionary.string "textContent"
  uid := dictionary.string "uid"
  imageUrl := dictionary.string "imageUrl"
  imageFileName := dictionary.string "imageFileName"

/-- The document that `addContent` writes for `word`. -/
def Word.document (word : Word) (writtenTime imageUrl imageFileName : String) : Dictionary :=
  [("testTitle", .string word.title), ("textContent", .string word.content),
    ("writtenTime", .string writtenTime), ("uid", .string word.uid), ("imageUrl", .string imageUrl),
    ("imageFileName", .string imageFileName)]

/-- The reader's keys are the writer's: nothing of a word falls back to `""`. -/
@[simp] theorem Word.ofDictionary_document (word : Word) (writtenTime imageUrl imageFileName : String) :
    Word.ofDictionary (word.document writtenTime imageUrl imageFileName) =
      { word with imageUrl, imageFileName } := rfl

@[simp] theorem Word.document_writtenTime (word : Word) (writtenTime imageUrl imageFileName : String) :
    (word.document writtenTime imageUrl imageFileName).lookup "writtenTime" =
      some (.string writtenTime) := rfl

structure Comment where
  comment : String
  commentMadeDate : String
  deriving DecidableEq, Repr

/-- `Comment.init(dictionary:)` -/
def Comment.ofDictionary (dictionary : Dictionary) : Comment where
  comment := dictionary.string "comment"
  commentMadeDate := dictionary.string "commentMadeDate"

/-- The document that `saveComment` adds. -/
def Comment.document (comment : Comment) : Dictionary :=
  [("comment", .string comment.comment), ("commentMadeDate", .string comment.commentMadeDate)]

@[simp] theorem Comment.ofDictionary_document (comment : Comment) :
    Comment.ofDictionary comment.document = comment := rfl

end BlindBoard
