import BlindBoard.Impl.Firebase
import BlindBoard.Proof.Answers

/-!
# The client answers as the service does

The app's queries order a collection by a field. Their results on the client's documents
are what the service lists of them (`results_order`): the comparator of such
a query is the service's order (`totalOrder_order`), and both list the documents
of the collection that have the field. So `getDocuments` of the client, with its queues
and its view, is one request that is served at one moment (`answer_getDocuments`).
-/

namespace BlindBoard.Firestore

open Lib

/-- The documents that there are, with their fields. -/
def DocumentMap.store (documents : DocumentMap) : Store Path Dictionary where
  entries := (documents.filter Document.isFoundDocument).documents.map fun doc => ⟨doc.key, doc.value⟩
  nodupKeys := by
    rw [List.NodupKeys, List.keys, List.map_map]
    exact (documents.filter Document.isFoundDocument).nodup

theorem DocumentMap.lookup_store {documents : DocumentMap} {key : Path} {value : Dictionary} :
    documents.store.lookup key = some value ↔
      ∃ doc, documents.find key = some doc ∧ doc.isFoundDocument = true ∧ doc.value = value := by
  rw [← Option.mem_def, AList.mem_lookup_iff]
  show _ ∈ (documents.filter Document.isFoundDocument).documents.map _ ↔ _
  rw [List.mem_map]
  constructor
  · rintro ⟨doc, hd, he⟩
    obtain ⟨hm, hf⟩ := DocumentMap.mem_filter.mp hd
    cases he
    exact ⟨doc, DocumentMap.find_eq.mpr ⟨hm, rfl⟩, hf, rfl⟩
  · rintro ⟨doc, hd, hf, rfl⟩
    obtain ⟨hm, rfl⟩ := DocumentMap.find_eq.mp hd
    exact ⟨doc, DocumentMap.mem_filter.mpr ⟨hm, hf⟩, rfl⟩

namespace Query

variable {collection : Path} {field : String} {descending : Bool}

/-- The documents of a collection, by the path of the query. -/
theorem matchesPath_order (h : collection.length % 2 = 1) (doc : Document) :
    (order collection field descending).matchesPath doc = inCollection collection doc.key := by
  rw [Bool.eq_iff_iff, inCollection_iff]
  show (if collection.length % 2 = 0 then decide (collection = doc.key)
    else decide (collection.length + 1 = doc.key.length) && collection.isPrefixOf doc.key) = true ↔ _
  rw [if_neg (by omega), Bool.and_eq_true, decide_eq_true_eq, List.isPrefixOf_iff_prefix]
  constructor
  · rintro ⟨hlen, rest, hk⟩
    rw [← hk, List.length_append] at hlen
    obtain ⟨id, rfl⟩ := List.length_eq_one_iff.mp (show rest.length = 1 by omega)
    exact ⟨id, hk.symm⟩
  · rintro ⟨id, hk⟩
    rw [hk]
    exact ⟨by simp, List.prefix_append _ _⟩

theorem order_iff (h : collection.length % 2 = 1) (doc : Document) :
    (order collection field descending).Matches doc = true ↔
    doc.isFoundDocument = true ∧ inCollection collection doc.key = true ∧
    (doc.value.lookup field).isSome = true := by
  have hfield : (order collection field descending).matchesOrderBy doc =
    (doc.value.lookup field).isSome := Bool.and_true _
  rw [Matches, matchesPath_order h, hfield, Bool.and_eq_true, Bool.and_eq_true, and_assoc]

/-- The keys of documents of one collection are compared by the IDs. -/
theorem append_lt {i j : String} : collection ++ [i] < collection ++ [j] ↔ i < j := by
  induction collection with
  | nil => simp [List.cons_lt_cons_iff]
  | cons s collection ih => simp [ih]

/-- The service sorts by what the comparator compares first, and then by what it compares next. -/
theorem sortKey_le {a b : Path × Dictionary} (ha : inCollection collection a.1 = true)
    (hb : inCollection collection b.1 = true)
    {v w : FieldValue} (hv : a.2.lookup field = some v) (hw : b.2.lookup field = some w)
    (h : (compareValues v w).then (compareKeys a.1 b.1) = .lt) : sortKey field a ≤ sortKey field b := by
  obtain ⟨i, hi⟩ := inCollection_iff.mp ha
  obtain ⟨j, hj⟩ := inCollection_iff.mp hb
  have key {e : Path × Dictionary} {u : FieldValue} {id : String} (he : e.1 = collection ++ [id])
    (hu : e.2.lookup field = some u) :
      sortKey field e = toLex (u.key, id) := by
    simp [sortKey, he, hu]
  rw [key hi hv, key hj hw, Prod.Lex.toLex_le_toLex]
  rw [Ordering.then_eq_lt, compareValues_eq] at h
  rcases h with hlt | ⟨heq, hlt⟩
  · exact .inl (compare_lt_iff_lt.mp hlt)
  · rw [compareKeys_lt, hi, hj, append_lt] at hlt
    exact .inr ⟨compare_eq_iff_eq.mp heq, hlt.le⟩

/-- Documents that the comparator puts in order are in the order of the service. -/
theorem totalOrder_order (h : collection.length % 2 = 1) {lhs rhs : Document}
    (hl : (order collection field descending).Matches lhs = true)
    (hr : (order collection field descending).Matches rhs = true)
    (hlt : (order collection field descending).totalOrder lhs rhs = .lt) :
    Ordered field descending lhs.data rhs.data := by
  obtain ⟨-, hlc, hlf⟩ := (order_iff h lhs).mp hl
  obtain ⟨-, hrc, hrf⟩ := (order_iff h rhs).mp hr
  obtain ⟨v, hv⟩ := Option.isSome_iff_exists.mp hlf
  obtain ⟨w, hw⟩ := Option.isSome_iff_exists.mp hrf
  change ((fromDescending descending).applyTo
    (compareFields (lhs.value.lookup field) (rhs.value.lookup field))).then
    (((fromDescending descending).applyTo (compareKeys lhs.key rhs.key)).then .eq) = .lt at hlt
  rw [hv, hw, Ordering.then_eq] at hlt
  cases descending with
  | false => exact sortKey_le hlc hrc hv hw hlt
  | true =>
    refine sortKey_le hrc hlc hw hv ?_
    -- what is compared is swapped
    have hswap : (compareValues v w).swap.then (compareKeys lhs.key rhs.key).swap = .lt := hlt
    rwa [← Std.OrientedCmp.eq_swap, ← Std.OrientedCmp.eq_swap] at hswap

/-- In the service's order, documents of one collection differ. -/
theorem ordered_antisymm {a b : Path × Dictionary} (ha : inCollection collection a.1 = true)
    (hb : inCollection collection b.1 = true)
    (hab : Ordered field descending a b) (hba : Ordered field descending b a) : a.1 = b.1 := by
  have hkey : sortKey field a = sortKey field b := by
    cases descending with
    | false => exact le_antisymm hab hba
    | true => exact le_antisymm hba hab
  obtain ⟨i, hi⟩ := inCollection_iff.mp ha
  obtain ⟨j, hj⟩ := inCollection_iff.mp hb
  have hid : a.1.getLastD "" = b.1.getLastD "" := (Prod.mk.inj (toLex_inj.mp hkey)).2
  rw [hi, hj, List.getLastD_concat, List.getLastD_concat] at hid
  rw [hi, hj, hid]

/-- The results of a query on a collection are what the service lists. -/
theorem results_order (h : collection.length % 2 = 1) (documents : DocumentMap) :
    ((order collection field descending).results documents).map Document.data =
      getDocuments documents.store collection field descending := by
  have hmem (e : Path × Dictionary) :
    e ∈ ((order collection field descending).listing documents).map Document.data ↔
      e ∈ getDocuments documents.store collection field descending := by
    obtain ⟨key, value⟩ := e
    rw [View.mem_data_listing, mem_getDocuments, DocumentMap.lookup_store]
    constructor
    · rintro ⟨doc, hf, hm, hv⟩
      obtain ⟨hfound, hc, hs⟩ := (order_iff h doc).mp hm
      obtain ⟨-, rfl⟩ := DocumentMap.find_eq.mp hf
      have hv' : doc.value = value := hv
      exact ⟨⟨doc, hf, hfound, hv⟩, hc, hv' ▸ hs⟩
    · rintro ⟨⟨doc, hf, hfound, rfl⟩, hc, hs⟩
      obtain ⟨-, rfl⟩ := DocumentMap.find_eq.mp hf
      exact ⟨doc, hf, (order_iff h doc).mpr ⟨hfound, hc, hs⟩, rfl⟩
  have hsorted : (((order collection field descending).listing documents).map Document.data).Pairwise
    (Ordered field descending) := by
    refine List.pairwise_map.mpr ((sorted_listing documents).imp_of_mem fun hl hr hlt => ?_)
    exact totalOrder_order h (mem_listing.mp hl).2 (mem_listing.mp hr).2 hlt
  have hnodup : (((order collection field descending).listing documents).map Document.data).Nodup :=
    (View.sorted_listing documents).imp fun hlt he => by
      rw [he] at hlt
      exact SortedSet.asymm hlt hlt
  have hperm : (((order collection field descending).listing documents).map Document.data).Perm
      (getDocuments documents.store collection field descending) :=
    (List.perm_ext_iff_of_nodup hnodup (nodup_getDocuments _ _ _ _)).mpr hmem
  refine List.Perm.eq_of_pairwise (fun a b ha hb hab hba => ?_) hsorted (sorted_getDocuments _ _ _ _) hperm
  obtain ⟨hla, hca, -⟩ := mem_getDocuments.mp ((hmem a).mp ha)
  obtain ⟨hlb, hcb, -⟩ := mem_getDocuments.mp hb
  have hk := ordered_antisymm hca hcb hab hba
  rw [hk] at hla
  exact Prod.ext hk (Option.some.inj (hla.symm.trans hlb))

end Query

/-- `getDocuments` of the client, for a query of the app, is one request served at a
moment between the call and its answer, on the documents that the local store had then. -/
theorem answer_getDocuments {collection : Path} {field : String} {descending : Bool}
    (h : collection.length % 2 = 1)
    {documents : DocumentMap} {as : List ClientAction} {c : Client (.order collection field descending)}
    (hr : Runs Client.step Client.Unheld (Client.new documents) as c) {call : ℕ}
    {s : ViewSnapshot (.order collection field descending)} (hs : some s ∈ (c.calls call).answers) :
    ∃ bs cs, ∃ c₁ : Client (.order collection field descending), as = bs ++ cs ∧
      Runs Client.step Client.Unheld (Client.new documents) bs c₁ ∧ call < c₁.next ∧
      (c₁.calls call).answers = [] ∧
      s.documents.toList.map Document.data = getDocuments c₁.documents.store collection field descending := by
  obtain ⟨bs, cs, c₁, has, hr₁, hcall, hans, hs₁⟩ := Client.answer_results hr hs
  exact ⟨bs, cs, c₁, has, hr₁, hcall, hans, hs₁.results.trans (Query.results_order h c₁.documents)⟩

theorem answer_getDocuments_owl :
    ∃ bs cs, ∃ c₁ : Client (.order ["board"] "writtenTime" true), Client.owlActions = bs ++ cs ∧
    Runs Client.step Client.Unheld (Client.new Client.catAndDog) bs c₁ ∧
    0 < c₁.next ∧ (c₁.calls 0).answers = [] ∧
    ∃ s : ViewSnapshot (.order ["board"] "writtenTime" true),
      s.documents.toList.map Document.data =
        getDocuments c₁.documents.store ["board"] "writtenTime" true := by
  obtain ⟨c, hr, ha⟩ : ∃ c, Runs Client.step Client.Unheld
    (Client.new Client.catAndDog : Client (.order ["board"] "writtenTime" true))
      Client.owlActions c ∧ (c.calls 0).answers.any Option.isSome = true := exists_runs (by decide +kernel)
  obtain ⟨event, he, hs⟩ := List.any_eq_true.mp ha
  obtain ⟨s, rfl⟩ := Option.isSome_iff_exists.mp hs
  obtain ⟨bs, cs, c₁, h₁, h₂, h₃, h₄, h₅⟩ := answer_getDocuments (by decide) hr he
  exact ⟨bs, cs, c₁, h₁, h₂, h₃, h₄, s, h₅⟩

end BlindBoard.Firestore
