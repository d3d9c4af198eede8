import BlindBoard.Impl.AddContent
import BlindBoard.Proof.WordList

/-!
# The search request of a title

`imagesFetch` puts the title without its spaces into a URL as it is, so a
character that divides a URL's query divides the title (`title_cut`: of
`"R&B"`, only `"R"` is searched for), and an escape in it is decoded.
`title_carried` says for which titles the request carries the title.
-/

namespace BlindBoard

open Lib

/-- The query of a URL, which ends at `'#'`. -/
def query (url : List Char) : List Char := ((url.dropWhile (· ≠ '?')).drop 1).takeWhile (· ≠ '#')

/-- The parameters of a query, divided at `'&'` and each at `'='`, and decoded. -/
def parameters (query : List Char) : List (List (List UInt8)) :=
  (query.splitOn '&').map fun parameter => (parameter.splitOn '=').map percentDecode

/-- The two parameters that a search for `value` has. -/
def searchFor (value : List Char) : List (List (List UInt8)) :=
  [[utf8 "query".toList, utf8 value], [utf8 "per_page".toList, utf8 "3".toList]]

/-- A title's characters that are no spaces. -/
def withoutSpaces (g : Graphemes) (title : String) : List Char :=
  ((g.characters title).filter (· ≠ " ")).flatMap String.toList

/-! ## The request's text -/

theorem hexLegal (c : Char) (h : (hexValue c).isSome = true) : urlLegal c = true := by
  have hc : c.isAlphanum = true := by
    show ((decide ('A'.val ≤ c.val ∧ c.val ≤ 'Z'.val) ||
        (decide ('a'.val ≤ c.val) && decide (c.val ≤ 'z'.val))) ||
      (decide ('0'.val ≤ c.val) && decide (c.val ≤ '9'.val))) = true
    simp only [Bool.or_eq_true, Bool.and_eq_true, decide_eq_true_eq, UInt32.le_iff_toNat_le]
    simp only [hexValue, Char.le_def, UInt32.le_iff_toNat_le] at h
    split_ifs at h with h₁ h₂ h₃
    · exact .inr h₁
    · exact .inl (.inl ⟨h₂.1, h₂.2.trans (by decide)⟩)
    · exact .inl (.inr ⟨h₃.1, h₃.2.trans (by decide)⟩)
    · exact absurd h (by decide)
  simp [urlLegal, hc]

theorem ImageService.toList_eraseWhiteSpace (g : Graphemes) (word : String) :
    (ImageService.eraseWhiteSpace g word).toList = withoutSpaces g word := by
  have key (cs : List String) (temp : String) :
      (cs.foldl (fun temp i => if i = " " then temp else temp ++ i) temp).toList =
        temp.toList ++ (cs.filter (· ≠ " ")).flatMap String.toList := by
    induction cs generalizing temp with
    | nil => simp
    | cons c cs ih =>
      rw [List.foldl_cons, ih]
      by_cases hc : c = " " <;> simp [hc]
  exact key _ _

/-- The text before the query. -/
def address : List Char := "https://api.pexels.com/v1/search".toList

theorem ImageService.toList_search (g : Graphemes) (word : String) : (ImageService.search g word).toList =
    (address ++ '?' :: "query=".toList) ++ (withoutSpaces g word ++ '&' :: "per_page=3".toList) := by
  have h₁ : "https://api.pexels.com/v1/search?query=".toList = address ++ '?' :: "query=".toList := by decide
  have h₂ : "&per_page=3".toList = '&' :: "per_page=3".toList := by decide
  have join (s t u : String) : (s ++ t ++ u).toList = s.toList ++ (t.toList ++ u.toList) := by simp
  exact (join _ _ _).trans
    (congrArg₂ (· ++ ·) h₁ (congrArg₂ (· ++ ·) (ImageService.toList_eraseWhiteSpace g word) h₂))

/-- The characters that divide a query and end it. -/
def dividers : List Char := ['&', '=', '#']

theorem dividers_delimiter : ∀ d ∈ dividers, Delimiter urlLegal d := by
  intro d hd
  have : ∀ d ∈ dividers, urlLegal d = true ∧ d ≠ '%' ∧ hexValue d = none := forall_mem_of_all (by decide)
  exact ⟨(this d hd).1, (this d hd).2.1, (this d hd).2.2⟩

/-- The query of a search for a text. -/
def searchQuery (t : List Char) : List Char :=
  ("query=".toList ++ (percentEncode urlLegal t ++ '&' :: "per_page=3".toList)).takeWhile (· ≠ '#')

theorem query_request {F : Foundation} {g : Graphemes} {title url : String}
    (h : ImageService.request F g title = some url) :
    query url.toList = searchQuery (withoutSpaces g title) := by
  have hlegal : ∀ c ∈ address ++ '?' :: "query=".toList, urlLegal c = true ∧ c ≠ '%' :=
    forall_mem_of_all (by decide)
  have hpage : percentEncode urlLegal "per_page=3".toList = "per_page=3".toList := by decide
  have haddress : ∀ c ∈ address, c ≠ '?' := forall_mem_of_all (by decide)
  rewrite [F.encodes _ _ h, ImageService.toList_search, percentEncode_append_of_legal hlegal,
    percentEncode_append (dividers_delimiter '&' (by decide)), hpage, query, List.append_assoc,
    List.dropWhile_append_of_pos (by simpa using haddress)]
  rfl

/-! ## Titles that divide the query -/

theorem not_mem_encoded {t : List Char} {d : Char} (hd : d ∈ dividers) (h : d ∉ t) :
    d ∉ percentEncode urlLegal t :=
  (mem_percentEncode (dividers_delimiter d hd)).not.mpr h

/-- The first parameter of a search starts with the text up to its first divider. -/
def opening (t : List Char) : List Char := "query".toList ++ '=' :: percentEncode urlLegal t

theorem not_mem_opening {t : List Char} {d : Char} (hd : d = '&' ∨ d = '#') (h : d ∉ t) : d ∉ opening t := by
  have hkey : d ∉ "query".toList ∧ d ≠ '=' ∧ d ∈ dividers := by
    rcases hd with rfl | rfl <;> decide
  rw [opening, List.mem_append, List.mem_cons]
  exact not_or.mpr ⟨hkey.1, not_or.mpr ⟨hkey.2.1, not_mem_encoded hkey.2.2 h⟩⟩

theorem searchQuery_eq (t : List Char) :
    searchQuery t = (opening t ++ '&' :: "per_page=3".toList).takeWhile (· ≠ '#') := by
  have hkey : "query=".toList = "query".toList ++ ['='] := by decide
  rw [searchQuery, opening, hkey, List.append_assoc, List.append_assoc]
  rfl

/-- The pieces of a first parameter. -/
theorem opening_split {t : List Char} (h : '=' ∉ t) (rest : List Char) :
    (opening t ++ '=' :: rest).splitOn '=' =
      "query".toList :: percentEncode urlLegal t :: rest.splitOn '=' := by
  have hkey : '=' ∉ "query".toList := by decide
  rw [opening, List.append_assoc, List.cons_append, List.splitOn_append_cons_self_of_not_mem hkey,
    List.splitOn_append_cons_self_of_not_mem (not_mem_encoded (by decide) h)]

theorem opening_parameter {t : List Char} (h : '=' ∉ t) :
    ((opening t).splitOn '=').map percentDecode = [utf8 "query".toList, percentDecode t] := by
  have hkey : '=' ∉ "query".toList := by decide
  have hdec : percentDecode "query".toList = utf8 "query".toList := by decide
  rw [opening, List.splitOn_append_cons_self_of_not_mem hkey,
    List.splitOn_eq_singleton (not_mem_encoded (by decide) h), List.map_cons, List.map_cons, hdec,
    percentDecode_percentEncode hexLegal]
  rfl

/-- A query of a title without dividers has two parameters. -/
theorem parameters_plain {t : List Char} (ht : ∀ d ∈ dividers, d ∉ t) :
    parameters (searchQuery t) = [[utf8 "query".toList, percentDecode t],
      [utf8 "per_page".toList, utf8 "3".toList]] := by
  have hpage : '#' ∉ '&' :: "per_page=3".toList ∧
      parameters "per_page=3".toList = [[utf8 "per_page".toList, utf8 "3".toList]] := by decide
  have hend : ∀ c ∈ opening t ++ '&' :: "per_page=3".toList, c ≠ '#' := by
    rintro c hc rfl
    exact (List.mem_append.mp hc).elim (not_mem_opening (.inr rfl) (ht _ (by decide))) hpage.1
  rw [searchQuery_eq, List.takeWhile_eq_self_iff.mpr (by simpa using hend), parameters,
    List.splitOn_append_cons_self_of_not_mem (not_mem_opening (.inl rfl) (ht _ (by decide))), List.map_cons,
    opening_parameter (ht _ (by decide)), ← hpage.2]
  rfl

theorem parameters_opening {t rest : List Char} (h : '&' ∉ opening t) :
    parameters (opening t ++ '&' :: rest) =
      ((opening t).splitOn '=').map percentDecode :: parameters rest := by
  rw [parameters, List.splitOn_append_cons_self_of_not_mem h]
  rfl

theorem opening_append (s r : List Char) {d : Char} (hd : d ∈ dividers) :
    opening (s ++ d :: r) = opening s ++ d :: percentEncode urlLegal r := by
  rw [opening, percentEncode_append (dividers_delimiter d hd), opening, List.append_assoc]
  rfl

theorem splitOn_append_of_not_mem {α : Type} [DecidableEq α] {a : α} {s : List α} (h : a ∉ s) (t : List α) :
    (s ++ t).splitOn a = (t.splitOn a).modifyHead (s ++ ·) := by
  induction s with
  | nil =>
    rw [List.nil_append]
    cases t.splitOn a <;> rfl
  | cons c s ih =>
    have hc : ¬ (c == a) = true := by
      simpa using Ne.symm (List.ne_of_not_mem_cons h)
    rw [List.cons_append, List.splitOn_cons_eq_if_modifyHead, if_neg hc, ih (List.not_mem_of_not_mem_cons h)]
    cases t.splitOn a <;> rfl

/-- Of a title with a divider, the first parameter has no more than the text before it: the
query has a single parameter, or the first has more parts than two, or it ends there. -/
theorem parameters_divided {s r : List Char} {d : Char} (hs : ∀ d ∈ dividers, d ∉ s) (hd : d ∈ dividers)
    {value : List UInt8} {page : List (List UInt8)}
    (h : parameters (searchQuery (s ++ d :: r)) = [[utf8 "query".toList, value], page]) :
    value = percentDecode s := by
  have hamp : '&' ∉ opening s := not_mem_opening (.inl rfl) (hs _ (by decide))
  have hstop : ∀ c ∈ opening s, c ≠ '#' := by
    rintro c hc rfl
    exact not_mem_opening (.inr rfl) (hs _ (by decide)) hc
  rw [searchQuery_eq, opening_append s r hd, List.append_assoc, List.cons_append,
    List.takeWhile_append_of_pos (by simpa using hstop)] at h
  generalize percentEncode urlLegal r ++ '&' :: "per_page=3".toList = rest at h
  have hcases : d = '&' ∨ d = '=' ∨ d = '#' := by simpa [dividers] using hd
  rcases hcases with rfl | rfl | rfl
  · rw [List.takeWhile_cons_of_pos (by decide), parameters_opening hamp,
      opening_parameter (hs _ (by decide))] at h
    exact (List.cons.inj (List.cons.inj (List.cons.inj h).1).2).1.symm
  · rw [List.takeWhile_cons_of_pos (by decide), parameters, splitOn_append_of_not_mem hamp,
      List.splitOn_cons_eq_if_modifyHead, if_neg (by decide)] at h
    generalize hp : (rest.takeWhile (· ≠ '#')).splitOn '&' = pieces at h
    cases pieces with
    | nil => exact absurd hp (List.splitOn_ne_nil _ _)
    | cons piece pieces =>
      rw [List.modifyHead_cons, List.modifyHead_cons, List.map_cons, opening_split (hs _ (by decide))] at h
      have hthree := congrArg List.length (List.cons.inj h).1
      exact absurd hthree (by simp [List.splitOn_ne_nil])
  · rw [List.takeWhile_cons_of_neg (by decide), List.append_nil, parameters,
      List.splitOn_eq_singleton hamp] at h
    exact absurd (List.cons.inj h).2 (by simp)

/-! ## Titles that are carried -/

theorem exists_divided {t : List Char} (h : ¬ ∀ d ∈ dividers, d ∉ t) :
    ∃ s d r, t = s ++ d :: r ∧ d ∈ dividers ∧ ∀ d ∈ dividers, d ∉ s := by
  cases hf : t.find? (· ∈ dividers) with
  | none =>
    have hnone := List.find?_eq_none.mp hf
    exact absurd (fun d hd ht => hnone d ht (by simpa using hd)) h
  | some d =>
    obtain ⟨hd, s, r, rfl, hs⟩ := List.find?_eq_some_iff_append.mp hf
    exact ⟨s, d, r, rfl, by simpa using hd, fun d hd ht => by simpa [hd] using hs d ht⟩

/-- A search whose query carries the characters of `t` that are `p` is for a text without dividers. -/
theorem plain_of_carried {t : List Char} {p : Char → Bool} (hp : ∀ d ∈ dividers, p d = true)
    (hs : ∀ s, s <+: t → percentDecode s = utf8 (t.filter p) → s.filter p = s)
    (h : parameters (searchQuery t) = searchFor (t.filter p)) : ∀ d ∈ dividers, d ∉ t := by
  by_contra hn
  obtain ⟨s, d, r, rfl, hd, hplain⟩ := exists_divided hn
  have hv : utf8 ((s ++ d :: r).filter p) = percentDecode s := parameters_divided hplain hd h
  have hfit : s.filter p = s := hs s (List.prefix_append ..) hv.symm
  rw [List.filter_append, hfit, List.filter_cons_of_pos (hp d hd)] at hv
  have hlt := length_utf8_lt (List.cons_ne_nil d (r.filter p)) s
  have hle := (length_percentDecode s).1
  rw [hv] at hlt
  omega

/-- The query carries a text if nothing in it divides the query and it has no escape. -/
theorem carries_iff {t : List Char} :
    parameters (searchQuery t) = searchFor t ↔ (∀ d ∈ dividers, d ∉ t) ∧ ¬ HasEscape t := by
  constructor
  · intro h
    have hplain : ∀ d ∈ dividers, d ∉ t :=
      plain_of_carried (p := fun _ => true) (fun _ _ => rfl) (fun s _ _ => by simp) (by simpa using h)
    rw [parameters_plain hplain] at h
    exact ⟨hplain, percentDecode_eq_utf8_iff.mp (List.cons.inj (List.cons.inj (List.cons.inj h).1).2).1⟩
  · rintro ⟨hplain, he⟩
    rw [parameters_plain hplain, percentDecode_eq_utf8_iff.mpr he]
    rfl

/-- The query carries a text without the spaces in it if the text has none. -/
theorem carries_filter_iff {t : List Char} : parameters (searchQuery t) = searchFor (t.filter (· ≠ ' ')) ↔
    ((∀ d ∈ dividers, d ∉ t) ∧ ¬ HasEscape t) ∧ ' ' ∉ t := by
  have fresh {s : List Char} (h : percentDecode s = utf8 (t.filter (· ≠ ' '))) : ' ' ∉ s := by
    intro hs
    have hb := mem_percentDecode (by decide) (by decide) hs 0x20 (by decide)
    obtain ⟨c, hc, he⟩ := mem_utf8 (by decide) (h ▸ hb)
    obtain ⟨-, hne⟩ := List.mem_filter.mp hc
    exact absurd (Char.toNat_inj.mp (he.trans (by decide : _ = ' '.toNat))) (by simpa using hne)
  have self {s : List Char} (h : ' ' ∉ s) : s.filter (· ≠ ' ') = s := by
    rw [List.filter_eq_self]
    rintro c hc
    simpa using fun e : c = ' ' => h (e ▸ hc)
  rw [← carries_iff]
  constructor
  · intro h
    have hplain : ∀ d ∈ dividers, d ∉ t :=
      plain_of_carried (forall_mem_of_all (by decide)) (fun s _ hv => self (fresh hv)) h
    have hv := h
    rw [parameters_plain hplain] at hv
    have ht := fresh (List.cons.inj (List.cons.inj (List.cons.inj hv).1).2).1
    exact ⟨by rwa [self ht] at h, ht⟩
  · rintro ⟨h, ht⟩
    rwa [self ht]

/-! ## The request of a Save tap -/

/-- A Save tap with the two texts sends a search whose query carries `value` and the page size. -/
def Carries (F : Foundation) (g : Graphemes) (a : App) (sheet : Nat) (title content : String) (uid : UUID)
    (value : List Char) : Prop :=
  (a.saveBoard sheet (some title) (some content) uid (ImageService.request F g title).isSome).net =
      a.net ++ [⟨a.next, .dataTask ⟨title, content, uid.uuidString, "", ""⟩, none⟩] ∧
    value ≠ [] ∧ ∃ url, ImageService.request F g title = some url ∧
      parameters (query url.toList) = searchFor value

/-- A title that is fit for a query as it is. -/
structure FitsQuery (F : Foundation) (g : Graphemes) (title : String) : Prop where
  text : withoutSpaces g title ≠ []
  undivided : ∀ d ∈ dividers, d ∉ title.toList
  noEscape : ¬ HasEscape (withoutSpaces g title)
  /-- `URL(string:)` does not refuse its characters. -/
  accepted : (F.url ("https://api.pexels.com/v1/search?query=" ++ String.ofList (withoutSpaces g title) ++
    "&per_page=3")).isSome = true

theorem mem_withoutSpaces {g : Graphemes} {title : String} {c : Char} (hc : c ≠ ' ') :
    c ∈ withoutSpaces g title ↔ c ∈ title.toList := by
  rw [← g.join title, withoutSpaces, List.mem_flatMap, List.mem_flatMap]
  constructor
  · rintro ⟨i, hi, h⟩
    exact ⟨i, (List.mem_filter.mp hi).1, h⟩
  · rintro ⟨i, hi, h⟩
    refine ⟨i, List.mem_filter.mpr ⟨hi, ?_⟩, h⟩
    have hne : i ≠ " " := by
      rintro rfl
      exact hc (List.mem_singleton.mp h)
    simpa using hne

/-- Without its spaces as scalars, a title is what is left of it without the characters `" "`. -/
theorem filter_withoutSpaces (g : Graphemes) (title : String) :
    (withoutSpaces g title).filter (· ≠ ' ') = title.toList.filter (· ≠ ' ') := by
  rw [← g.join title, withoutSpaces]
  induction g.characters title with
  | nil => rfl
  | cons i is ih =>
    rw [List.flatMap_cons, List.filter_append, ← ih, List.filter_cons]
    split
    · rw [List.flatMap_cons, List.filter_append]
    next hi =>
      have hi : i = " " := by simpa using hi
      rw [hi]
      rfl

theorem space_not_mem_withoutSpaces {g : Graphemes} {title : String} :
    ' ' ∉ withoutSpaces g title ↔ ∀ i ∈ g.characters title, ' ' ∈ i.toList → i = " " := by
  simp [withoutSpaces, List.mem_flatMap, imp.swap]

/-- The request goes out where the URL is built. -/
theorem saveBoard_net (a : App) (sheet : Nat) {title content : String}
    (uid : UUID) (url : Bool) (ht : title ≠ "")
    (hc : content ≠ "") : (a.saveBoard sheet (some title) (some content) uid url).net =
      a.net ++ if url then [⟨a.next, .dataTask ⟨title, content, uid.uuidString, "", ""⟩, none⟩] else [] := by
  obtain ⟨hud, hl⟩ := a.showLoader_hud (.addWord sheet) true
  rw [App.saveBoard, if_neg (by simp [ht, hc]), hl]
  cases url with
  | false => simp [App.addContent, App.record]
  | true => rfl

theorem carries_eq {F : Foundation} {g : Graphemes} {a : App} {sheet : Nat}
    {title content : String} {uid : UUID}
    {value : List Char} (ht : title ≠ "") (hc : content ≠ "") : Carries F g a sheet title content uid value ↔
      value ≠ [] ∧ (ImageService.request F g title).isSome = true ∧
        parameters (searchQuery (withoutSpaces g title)) = searchFor value := by
  rw [Carries, saveBoard_net a sheet uid _ ht hc]
  constructor
  · rintro ⟨-, hv, url, hr, hp⟩
    exact ⟨hv, by rw [hr]; rfl, query_request hr ▸ hp⟩
  · rintro ⟨hv, hr, hp⟩
    obtain ⟨url, hr⟩ := Option.isSome_iff_exists.mp hr
    exact ⟨by rw [hr]; rfl, hv, url, hr, query_request hr ▸ hp⟩

theorem fitsQuery_iff {F : Foundation} {g : Graphemes} {title : String} : FitsQuery F g title ↔
    withoutSpaces g title ≠ [] ∧ (ImageService.request F g title).isSome = true ∧
      (∀ d ∈ dividers, d ∉ withoutSpaces g title) ∧ ¬ HasEscape (withoutSpaces g title) := by
  have hne : ∀ d ∈ dividers, d ≠ ' ' := forall_mem_of_all (by decide)
  have herase : ImageService.eraseWhiteSpace g title = String.ofList (withoutSpaces g title) :=
    String.toList_inj.mp (by rw [ImageService.toList_eraseWhiteSpace, String.toList_ofList])
  have hrequest : ImageService.request F g title = F.url ("https://api.pexels.com/v1/search?query=" ++
      String.ofList (withoutSpaces g title) ++ "&per_page=3") :=
    congrArg (fun t => F.url ("https://api.pexels.com/v1/search?query=" ++ t ++ "&per_page=3")) herase
  constructor
  · rintro ⟨htext, hd, he, ha⟩
    exact ⟨htext, hrequest ▸ ha, fun d h => (mem_withoutSpaces (hne d h)).not.mpr (hd d h), he⟩
  · rintro ⟨htext, ha, hd, he⟩
    exact ⟨htext, fun d h => (mem_withoutSpaces (hne d h)).not.mp (hd d h), he, hrequest ▸ ha⟩

/-- The request that an accepted Save tap sends carries the title without its spaces,
where these are the characters `" "`, if and only if the title is fit for a query as it
is; and so it does where they are the scalars, if none of these is part of another character. -/
theorem title_carried (F : Foundation) (g : Graphemes) (a : App) (sheet : Nat)
    (title content : String) (uid : UUID)
    (ht : title ≠ "") (hc : content ≠ "") :
    (Carries F g a sheet title content uid (withoutSpaces g title) ↔ FitsQuery F g title) ∧
    (Carries F g a sheet title content uid (title.toList.filter (· ≠ ' ')) ↔
      FitsQuery F g title ∧ ∀ i ∈ g.characters title, ' ' ∈ i.toList → i = " ") := by
  rw [carries_eq ht hc, carries_eq ht hc, fitsQuery_iff, ← filter_withoutSpaces,
    carries_iff, carries_filter_iff,
    space_not_mem_withoutSpaces]
  refine ⟨Iff.rfl, ?_⟩
  constructor
  · rintro ⟨hv, hr, hfit, hspace⟩
    exact ⟨⟨fun h => hv (by rw [h]; rfl), hr, hfit⟩, hspace⟩
  · rintro ⟨⟨hv, hr, hfit⟩, hspace⟩
    refine ⟨fun h => ?_, hr, hfit, hspace⟩
    rw [List.filter_eq_self.mpr fun c hc => ?_] at h
    · exact hv h
    · have := space_not_mem_withoutSpaces.mpr hspace
      simpa using fun e : c = ' ' => this (e ▸ hc)

/-! ## A title of two words, and one with an ampersand -/

/-- A Foundation that accepts every text. -/
def accepting : Foundation where
  url s := some (String.ofList (percentEncode urlLegal s.toList))
  legal s h := by
    rw [h, String.ofList_toList]
  encodes s u h := by
    cases h
    rw [String.toList_ofList]

theorem title_carried_cafe :
    Carries accepting scalars (App.launch none) 0 "my café" "latte" uuid₁ "mycafé".toList ∧
    Carries accepting scalars (App.launch none) 0 "my café" "latte" uuid₁
      ("my café".toList.filter (· ≠ ' ')) := by
  have hfit : FitsQuery accepting scalars "my café" :=
    { text := by decide
      undivided := forall_mem_of_all (by decide)
      noEscape := by decide
      accepted := rfl }
  have h := title_carried accepting scalars (App.launch none) 0 "my café" "latte" uuid₁
    (by decide) (by decide)
  have hw : withoutSpaces scalars "my café" = "mycafé".toList := by decide
  exact ⟨hw ▸ h.1.mpr hfit, h.2.mpr ⟨hfit, by decide⟩⟩

/-- Of `"R&B"`, only `"R"` is searched for. -/
theorem title_cut :
    ¬ ∀ (F : Foundation) (g : Graphemes) (a : App) (sheet : Nat) (title content : String) (uid : UUID),
    title ≠ "" → content ≠ "" → Carries F g a sheet title content uid (withoutSpaces g title) ∨
      Carries F g a sheet title content uid (title.toList.filter (· ≠ ' ')) := by
  intro h
  rcases h accepting scalars (App.launch none) 0 "R&B" "music" uuid₁ (by decide) (by decide) with h | h
  · exact absurd ((carries_eq (by decide) (by decide)).mp h).2.2 (by decide)
  · exact absurd ((carries_eq (by decide) (by decide)).mp h).2.2 (by decide)

end BlindBoard
