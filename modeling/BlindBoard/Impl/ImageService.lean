import Mathlib.Algebra.Group.Int.Defs
import BlindBoard.Lib.PercentEncoding
import BlindBoard.Impl.Firebase

/-!
# Image search and upload

`ImageService.imagesFetch` asks an image search service for a photo and hands
it to its completion; `ImageUploader.imageUpload` turns a photo into a file for
Storage. The completion of either is called at most once, at the end of the
path taken, so a handler's result is an `Option`: the argument of the call, or
`none` where the handler returns without calling it.

What these functions get from outside (the answer to the search, `URL(string:)`,
the photo's bytes, the image codecs) is a `Web`.
-/

namespace BlindBoard

inductive Json where
  | null
  | bool (b : Bool)
  | number (q : Rat)
  | string (s : String)
  | array (items : List Json)
  | object (fields : List (String × Json))

namespace Json

def string? : Json → Option String
  | .string s => some s
  | _ => none

/-- A number decodes as `Int` if it is one of 64 bits. -/
def int? : Json → Option Int
  | .number q => if q.den = 1 ∧ -2 ^ 63 ≤ q.num ∧ q.num < 2 ^ 63 then some q.num else none
  | _ => none

def array? : Json → Option (List Json)
  | .array items => some items
  | _ => none

def object? : Json → Option (List (String × Json))
  | .object fields => some fields
  | _ => none

/-- `decodeIfPresent`: `nil` for a missing key or `null`, and an error for
anything else that does not decode. -/
def ifPresent {α : Type} (fields : List (String × Json)) (key : String) (decode : Json → Option α) :
    Option (Option α) :=
  match fields.lookup key with
  | none | some .null => some none
  | some j => (decode j).map some

end Json

structure ImgReal where
  original : String
  deriving DecidableEq

structure ImgInfo where
  src : Option ImgReal
  deriving DecidableEq

structure Img where
  page : Option Int
  photos : Option (List ImgInfo)
  deriving DecidableEq

def ImgReal.decode (j : Json) : Option ImgReal := do
  let fields ← j.object?
  let original ← (fields.lookup "original").bind Json.string?
  return ⟨original⟩

def ImgInfo.decode (j : Json) : Option ImgInfo := do
  let fields ← j.object?
  let src ← Json.ifPresent fields "src" ImgReal.decode
  return ⟨src⟩

/-- `try? JSONDecoder().decode(Img.self, from:)` -/
def Img.decode (j : Json) : Option Img := do
  let fields ← j.object?
  let page ← Json.ifPresent fields "page" Json.int?
  let photos ← Json.ifPresent fields "photos" fun photos => do (← photos.array?).mapM ImgInfo.decode
  return ⟨page, photos⟩

/-- An image, as the data it holds; `==` compares the data. -/
structure UIImage where
  data : Option Data
  deriving DecidableEq

/-- `UIImage()` -/
def UIImage.empty : UIImage := ⟨none⟩

/-- What a search gets from outside the app. -/
structure Web where
  /-- The data task's `data`: `none` for `nil`, `some none` for bytes that are no JSON. -/
  data : Option (Option Json)
  /-- Whether `URL(string:)` accepts a text. -/
  url : String → Bool
  /-- `try? Data(contentsOf:)` -/
  contents : String → Option Data
  /-- `UIImage(data:)` -/
  image : Data → Option UIImage
  /-- `jpegData(compressionQuality: 0.25)` -/
  jpegData : UIImage → Option Data

/-- How a text divides into `Character`s, its grapheme clusters. -/
structure Graphemes where
  characters : String → List String
  /-- The characters one after another are the text. -/
  join : ∀ s, (characters s).flatMap String.toList = s.toList

/-- A text with one scalar to the character. -/
def scalars : Graphemes where
  characters s := s.toList.map fun c => String.singleton c
  join s := by
    rw [List.flatMap_map]
    simp

/-- `ImageService.eraseWhiteSpace`: the characters but `" "`. A space with a
combining mark is another character. -/
def ImageService.eraseWhiteSpace (g : Graphemes) (word : String) : String :=
  (g.characters word).foldl (fun temp i => if i = " " then temp else temp ++ i) ""

/-- The text that `imagesFetch` makes the URL of. -/
def ImageService.search (g : Graphemes) (word : String) : String :=
  "https://api.pexels.com/v1/search?query=" ++ ImageService.eraseWhiteSpace g word ++ "&per_page=3"

/-- The characters of a URL: a percent sign only as the start of an escape. -/
def urlLegal (c : Char) : Bool := c.isAlphanum || "-._~:/?#[]@!$&'()*+,;=".toList.contains c

/-- Foundation's URLs. -/
structure Foundation where
  /-- The text of `URL(string:)`. -/
  url : String → Option String
  /-- A text of legal characters is its URL's. -/
  legal : ∀ s, Lib.percentEncode urlLegal s.toList = s.toList → url s = some s
  /-- The text of a URL has the characters that are not legal encoded, and no others. -/
  encodes : ∀ s u, url s = some u → u.toList = Lib.percentEncode urlLegal s.toList

/-- The URL of the request that `imagesFetch` sends; it sends none where there is no URL. -/
def ImageService.request (F : Foundation) (g : Graphemes) (word : String) : Option String :=
  F.url (ImageService.search g word)

/-- The data task's handler in `imagesFetch`. A transport error is only
printed; what decides is whether there is data. -/
def ImageService.imagesFetched (web : Web) : Option UIImage := do
  let data ← web.data
  let imageData ← data.bind Img.decode
  let photo ← imageData.photos
  if photo.length ≠ 0 then
    let photoFirst ← photo.head?
    let realurl := (photoFirst.src.map ImgReal.original).getD ""
    if web.url realurl then
      -- `Data(contentsOf:)` that fails ends the handler too: there is no `else`
      let imageReal ← web.contents realurl
      web.image imageReal
    else none
  else return UIImage.empty

end BlindBoard
