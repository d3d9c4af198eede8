import BlindBoard.Impl.AddContent
import BlindBoard.Proof.WordList

/-!
# Adds that report nothing

A stage of the add pipeline that fails mostly returns without calling the
completion, and then nothing ever clears the loader: `search_unreported` is a
photo that cannot be downloaded. `reports_once` says at which outcomes the
search, the upload and the whole add report, and that they do so once.
-/

namespace BlindBoard

/-! ## Outcomes that are reported -/

/-- The photos in the answer to the search, where it is JSON of the model's shape that has
a list of them. -/
def Web.photos (web : Web) : Option (List ImgInfo) := do (← Img.decode (← (← web.data))).photos

/-- The address of a photo. -/
def ImgInfo.realurl (photo : ImgInfo) : String := (photo.src.map ImgReal.original).getD ""

/-- The photo is downloaded and decoded as `image`. -/
def Web.Loads (web : Web) (photo : ImgInfo) (image : UIImage) : Prop :=
  web.url photo.realurl = true ∧ ∃ data, web.contents photo.realurl = some data ∧ web.image data = some image

/-- The search for the text `search` comes to an end that is reported: its URL is
built, its answer has a list of photos, and the first photo, if there is one, loads. -/
def Web.Reports (web : Web) (search : String) : Prop :=
  web.url search = true ∧ ∃ photos, web.photos = some photos ∧ ∀ photo ∈ photos.head?,
  ∃ image, web.Loads photo image

/-- `image` is the first photo of the list. -/
def Web.Finds (web : Web) (image : UIImage) : Prop :=
  ∃ photos photo, web.photos = some photos ∧ photos.head? = some photo ∧ web.Loads photo image

/-- The upload of `image` comes to an end that is reported: it is encoded and
uploaded, and its download URL is found. -/
def Stages.Uploads (o : Stages) (image : UIImage) : Prop :=
  (o.web.jpegData image).isSome = true ∧ o.uploaded = true ∧ o.imageUrl.isSome = true

/-- The word is written and the compose screen dismissed, or the loader is cleared
and the compose screen left open. -/
def OneEnding (word : Word) (effects : List Effect) : Prop :=
  (∃ now imageUrl fileName, effects = completed word now [imageUrl, fileName]) ∨ effects = [.showLoader false]

/-! ## The search and the upload -/

namespace ImageService

theorem imagesFetched_eq (web : Web) : imagesFetched web = web.photos.bind fun photo =>
    if photo.length ≠ 0 then photo.head?.bind fun photoFirst =>
      if web.url photoFirst.realurl then (web.contents photoFirst.realurl).bind web.image else none
    else some UIImage.empty := by
  rw [imagesFetched, Web.photos]
  cases web.data with
  | none => rfl
  | some data =>
    cases data with
    | none => rfl
    | some json =>
      simp only [Option.bind_eq_bind, Option.bind_some]
      cases Img.decode json <;> rfl

/-- The completion gets the first photo of a list, and an empty image for an empty one. -/
theorem imagesFetched_iff {web : Web} {image : UIImage} : imagesFetched web = some image ↔
    (web.photos = some [] ∧ image = UIImage.empty) ∨ web.Finds image := by
  rw [imagesFetched_eq, Web.Finds]
  cases hp : web.photos with
  | none => simp
  | some photos =>
    cases photos with
    | nil =>
      constructor
      · rintro ⟨⟩
        exact .inl ⟨rfl, rfl⟩
      · rintro (⟨-, rfl⟩ | ⟨photos, photo, h, hhead, -⟩)
        · rfl
        · cases h
          cases hhead
    | cons photo photos => simp [Web.Loads, Option.bind_eq_some_iff]

/-- The search reports where its handler calls the completion. -/
theorem reports_iff {g : Graphemes} {word : String} {web : Web} : web.Reports (search g word) ↔
    web.url (search g word) = true ∧ ∃ image, imagesFetched web = some image := by
  simp only [Web.Reports, imagesFetched_iff, Web.Finds]
  refine and_congr_right fun _ => ⟨?_, ?_⟩
  · rintro ⟨photos, hp, hfirst⟩
    cases photos with
    | nil => exact ⟨_, .inl ⟨hp, rfl⟩⟩
    | cons photo photos =>
      obtain ⟨image, hl⟩ := hfirst photo rfl
      exact ⟨image, .inr ⟨_, photo, hp, rfl, hl⟩⟩
  · rintro ⟨image, ⟨hp, -⟩ | ⟨photos, photo, hp, hhead, hl⟩⟩
    · exact ⟨[], hp, nofun⟩
    · refine ⟨photos, hp, fun photo' hp' => ?_⟩
      cases hhead.symm.trans hp'
      exact ⟨image, hl⟩

/-- A search that reports calls its completion once, and any other never. -/
theorem imagesFetch_cases (g : Graphemes) (word : String) (web : Web) :
    (web.Reports (search g word) ∧ ∃ image, imagesFetched web = some image ∧
      ∀ {α : Type} (completion : UIImage → List α), imagesFetch g word web completion = completion image) ∨
    ¬ web.Reports (search g word) ∧
      ∀ {α : Type} (completion : UIImage → List α), imagesFetch g word web completion = [] := by
  rw [reports_iff]
  simp only [imagesFetch_eq]
  by_cases hu : web.url (search g word) = true
  · cases hi : imagesFetched web with
    | none => exact .inr ⟨by simp, fun _ => by simp⟩
    | some image => exact .inl ⟨⟨hu, image, rfl⟩, image, rfl, fun _ => by simp [hu]⟩
  · exact .inr ⟨fun h => hu h.1, fun _ => by simp [hu]⟩

end ImageService

/-- An upload that reports calls its completion once, and any other never. -/
theorem ImageUploader.imageUpload_cases (o : Stages) (image : UIImage) :
    (o.Uploads image ∧ ∃ imageUrl fileName, ∀ {α : Type} (completion : List String → List α),
      imageUpload o image completion = completion [imageUrl, fileName]) ∨
    ¬ o.Uploads image ∧ ∀ {α : Type} (completion : List String → List α),
      imageUpload o image completion = [] := by
  unfold imageUpload Stages.Uploads
  cases o.web.jpegData image with
  | none => exact .inr ⟨by simp, fun _ => rfl⟩
  | some imageData =>
    cases o.uploaded with
    | false => exact .inr ⟨by simp, fun _ => by simp⟩
    | true =>
      cases o.imageUrl with
      | none => exact .inr ⟨by simp, fun _ => by simp⟩
      | some imageUrl => exact .inl ⟨by simp, imageUrl, o.fileName.uuidString, fun _ => by simp⟩

/-! ## The add -/

/-- What the closures of one add do: one ending, or nothing. -/
theorem addContent_ending (g : Graphemes) (word : Word) (o : Stages) :
    OneEnding word (addContent g word o) ↔
      o.web.Reports (ImageService.search g word.title) ∧
        ∀ image, o.web.Finds image → image = UIImage.empty ∨ o.Uploads image := by
  have silent : ¬ OneEnding word [] := by
    rintro (⟨now, imageUrl, fileName, h⟩ | h) <;> cases h
  rcases ImageService.imagesFetch_cases g word.title o.web with ⟨hr, image, hi, hc⟩ | ⟨hr, hc⟩
  · rw [addContent, hc]
    have found {image' : UIImage} (hf : o.web.Finds image') : image' = image := by
      have := ImageService.imagesFetched_iff.mpr (.inr hf)
      exact Option.some.inj (this.symm.trans hi)
    split
    next he =>
      refine ⟨fun _ => ⟨hr, fun image' hf => .inl ((found hf).trans he)⟩, fun _ => .inr rfl⟩
    next hne =>
      have hf : o.web.Finds image := (ImageService.imagesFetched_iff.mp hi).resolve_left fun h => hne h.2
      rcases ImageUploader.imageUpload_cases o image
        with ⟨hu, imageUrl, fileName, hcu⟩ | ⟨hu, hcu⟩ <;> rw [hcu]
      · exact ⟨fun _ => ⟨hr, fun image' hf => .inr (found hf ▸ hu)⟩,
          fun _ => .inl ⟨o.now, imageUrl, fileName, rfl⟩⟩
      · exact ⟨fun h => absurd h silent, fun h => absurd (h.2 image hf) (by simp [hne, hu])⟩
  · rw [addContent, hc]
    exact ⟨fun h => absurd h silent, fun h => absurd h.1 hr⟩

/-- The search calls its completion exactly once where it comes to an end that is
reported, the upload where it does, and the closures of an add run exactly one of
its endings where the search reports and the upload of a photo it finds does. -/
theorem reports_once (g : Graphemes) (word : Word) (o : Stages) :
    ((ImageService.imagesFetch g word.title o.web fun image => [image]).length = 1 ↔
      o.web.Reports (ImageService.search g word.title)) ∧
    (∀ image, (ImageUploader.imageUpload o image fun imageUrl => [imageUrl]).length = 1 ↔ o.Uploads image) ∧
    (OneEnding word (addContent g word o) ↔
      o.web.Reports (ImageService.search g word.title) ∧
        ∀ image, o.web.Finds image → image = UIImage.empty ∨ o.Uploads image) := by
  refine ⟨?_, fun image => ?_, addContent_ending g word o⟩
  · rcases ImageService.imagesFetch_cases g word.title o.web
      with ⟨hr, image, -, hc⟩ | ⟨hr, hc⟩ <;> simp [hc, hr]
  · rcases ImageUploader.imageUpload_cases o image
      with ⟨hu, imageUrl, fileName, hc⟩ | ⟨hu, hc⟩ <;> simp [hc, hu]

/-! ## A photo that cannot be downloaded -/

/-- The search finds a photo whose download fails; an upload would succeed. -/
def noPhoto : Stages where
  web := { found with contents := fun _ => none }
  fileName := uuid₂
  uploaded := true
  imageUrl := some "https://firebasestorage.googleapis.com/1"
  now := "2022-10-01T09:00:00Z"

theorem search_unreported : ¬ ∀ (g : Graphemes) (word : Word) (o : Stages),
    (ImageService.imagesFetch g word.title o.web fun image => [image]).length = 1 ∧
    (∀ image, (ImageUploader.imageUpload o image fun imageUrl => [imageUrl]).length = 1) ∧
    OneEnding word (addContent g word o) := by
  intro h
  have hl := (h scalars cat noPhoto).1
  exact absurd hl (by decide +kernel)

end BlindBoard
