import BlindBoard.Impl.App

/-!
# One call of `addContent`, from its stages' outcomes

The functions of the add pipeline with the closures that they are given. What
outside decides at each stage is an input (`Stages`), and a handler runs where
its request is answered; so the value of such a function is what its closures do,
in order, and a return without a call of the completion is `[]`. That the
launches' handlers are these, a stage at a time, is `imagesFetch_eq`,
`imagesFetched_perform` and `addCompleted_perform`.
-/

namespace BlindBoard

/-- What outside decides about one add. -/
structure Stages where
  web : Web
  /-- `NSUUID().uuidString` -/
  fileName : UUID
  /-- `putData` ends without an error. -/
  uploaded : Bool
  /-- `url?.absoluteString`, where `ref.downloadURL` gives it. -/
  imageUrl : Option String
  /-- `Date().ISO8601Format()` -/
  now : String

/-- What the closures of `addContent` do. -/
inductive Effect where
  | showLoader (b : Bool)
  | setData (document : String) (data : Dictionary)
  | dismiss
  | fetchBoard
  /-- An array is indexed out of range. -/
  | trap
  deriving DecidableEq

/-- `ImageService.imagesFetch` -/
def ImageService.imagesFetch {α : Type} (g : Graphemes) (word : String)
    (web : Web) (completion : UIImage → List α) :
    List α :=
  if web.url (ImageService.search g word) then
    match web.data with
    | some data =>
      match data.bind Img.decode with
      | some imageData =>
        match imageData.photos with
        | some photo =>
          if photo.length ≠ 0 then
            match photo.head? with
            | some photoFirst =>
              let realurl := (photoFirst.src.map ImgReal.original).getD ""
              if web.url realurl then
                match web.contents realurl with
                | some imageReal =>
                  match web.image imageReal with
                  | some image => completion image
                  | none => []
                -- the download has failed, and there is no `else`
                | none => []
              else []
            | none => []
          else completion UIImage.empty
        | none => []
      | none => []
    | none => []
  else []

/-- `ImageUploader.imageUpload` -/
def ImageUploader.imageUpload {α : Type} (o : Stages) (image : UIImage)
    (completion : List String → List α) : List α :=
  match o.web.jpegData image with
  | some _ =>
    if o.uploaded then
      match o.imageUrl with
      | some imageUrl => completion [imageUrl, o.fileName.uuidString]
      | none => []
    else []
  | none => []

/-- What `addContent` does when the image is uploaded. -/
def completed (word : Word) (now : String) (imageUrl : List String) : List Effect :=
  match imageUrl[0]?, imageUrl[1]? with
  | some url, some fileName =>
    [.setData word.uid (word.document now url fileName), .dismiss, .fetchBoard, .showLoader false]
  | _, _ => [.trap]

/-- `WordTableViewController.addContent` -/
def addContent (g : Graphemes) (word : Word) (o : Stages) : List Effect :=
  ImageService.imagesFetch g word.title o.web fun image =>
    if image = UIImage.empty then [.showLoader false]
    else ImageUploader.imageUpload o image (completed word o.now)

/-! ## The handlers of a launch -/

/-- The handler that `imagesFetch` leaves with its request is the launches' one. -/
theorem ImageService.imagesFetch_eq {α : Type} (g : Graphemes) (word : String) (web : Web)
    (completion : UIImage → List α) : ImageService.imagesFetch g word web completion =
      if web.url (ImageService.search g word) then ((ImageService.imagesFetched web).map completion).getD
        [] else [] := by
  unfold ImageService.imagesFetch ImageService.imagesFetched
  split
  · cases web.data with
    | none => rfl
    | some data =>
      simp only [Option.bind_eq_bind, Option.bind_some]
      cases data.bind Img.decode with
      | none => rfl
      | some imageData =>
        simp only [Option.bind_some]
        cases imageData.photos with
        | none => rfl
        | some photo =>
          simp only [Option.bind_some]
          split
          · cases photo.head? with
            | none => rfl
            | some photoFirst =>
              simp only [Option.bind_some]
              split
              · cases web.contents _ with
                | none => rfl
                | some imageReal =>
                  simp only [Option.bind_some]
                  cases web.image imageReal <;> rfl
              · rfl
          · rfl
  · rfl

namespace App

/-- What a launch does for an effect of the add of `word`. -/
def perform (word : Word) (a : App) : Effect → App
  | .showLoader b => a.showLoader .board b
  | .setData _ data =>
    a.issue (.setData word (data.string "writtenTime") (data.string "imageUrl") (data.string "imageFileName"))
  | .dismiss => (a.record (.closed word a.modal)).dismiss
  | .fetchBoard => a.fetchBoard
  | .trap => { a with crashed := true }

/-- The handler of a finished upload. -/
theorem addCompleted_perform (a : App) (word : Word) (imageUrl fileName now : String) :
    a.addCompleted word imageUrl fileName now = (completed word now [imageUrl, fileName]).foldl
      (perform word) a := rfl

/-- The handler of the search: what it does where it uploads nothing. -/
theorem imagesFetched_perform (a : App) (word : Word) (web : Web) (fileName : UUID)
    (h : ∀ image ∈ ImageService.imagesFetched web, image ≠ UIImage.empty → web.jpegData image = none) :
    a.imagesFetched word web fileName = (((ImageService.imagesFetched web).map fun image =>
      if image = UIImage.empty then [Effect.showLoader false] else []).getD []).foldl (perform word) a := by
  unfold App.imagesFetched
  cases hi : ImageService.imagesFetched web with
  | none => rfl
  | some image =>
    simp only [Option.map_some, Option.getD_some]
    split
    · rfl
    next hne =>
      rw [App.imageUpload, h image hi hne]
      rfl

end App

end BlindBoard
