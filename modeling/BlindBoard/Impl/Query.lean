import BlindBoard.Lib.Path
import BlindBoard.Lib.SortedSet
import BlindBoard.Lib.Utf8
import BlindBoard.Impl.Models

/-!
# Documents and queries of the Firestore client

What the client's core (Firestore/core/src) keeps of a document, and a query on a
collection with its `orderBy` clauses and its limit: which documents it matches
and in which order. Filters, bounds and collection groups are left out, as is
the version of a document.

A comparison fails hard where a document lacks a field of the order; documents that
the query matches can be compared (`comparator_of_matches`). The comparator is then a
total order of documents, in which only documents of the same key are equal
(`totalOrder_eq`): texts are compared by their bytes, which is the order of their
characters (`compareStrings_lt`), and the key is among what is compared.
-/

namespace BlindBoard.Firestore

open Lib

/-! ## Documents -/

inductive DocumentType where
  | invalid
  | foundDocument
  | noDocument
  | unknownDocument
  deriving DecidableEq

inductive DocumentState where
  | hasLocalMutations
  | hasCommittedMutations
  | synced
  deriving DecidableEq

/-- `MutableDocument`; `value` lists the fields in the order of their names. -/
structure Document where
  key : Path
  documentType : DocumentType
  value : Dictionary
  documentState : DocumentState
  deriving DecidableEq

namespace Document

def isFoundDocument (doc : Document) : Bool := doc.documentType = .foundDocument

def hasLocalMutations (doc : Document) : Bool := doc.documentState = .hasLocalMutations

def hasCommittedMutations (doc : Document) : Bool := doc.documentState = .hasCommittedMutations

end Document

/-! ## Comparisons -/

/-- `util::Compare` of texts: byte by byte. -/
def compareStrings (s t : String) : Ordering := compare (utf8 s.toList) (utf8 t.toList)

/-- `GetTypeOrder` -/
def typeOrder : FieldValue → ℕ
  | .integer _ => 2
  | .string _ => 5

/-- `model::Compare` -/
def compareValues (left right : FieldValue) : Ordering :=
  if typeOrder left ≠ typeOrder right then compare (typeOrder left) (typeOrder right)
  else
    match left, right with
    | .integer m, .integer n => compare m n
    | .string s, .string t => compareStrings s t
    | _, _ => .eq

/-- `DocumentKey::CompareTo` -/
def compareKeys (left right : Path) : Ordering := List.compareLex compareStrings left right

inductive Direction where
  | ascending
  | descending
  deriving DecidableEq

def Direction.applyTo : Direction → Ordering → Ordering
  | .ascending, result => result
  | .descending, result => result.swap

/-- The path of a field of its own, or of the document's key (`__name__`). -/
inductive FieldPath where
  | keyFieldPath
  | field (name : String)
  deriving DecidableEq

structure OrderBy where
  field : FieldPath
  direction : Direction
  deriving DecidableEq

/-- `OrderBy::Compare`, which fails hard where a document lacks the field. -/
def OrderBy.compare (orderBy : OrderBy) (lhs rhs : Document) : Option Ordering :=
  match orderBy.field with
  | .keyFieldPath => some (orderBy.direction.applyTo (compareKeys lhs.key rhs.key))
  | .field name =>
    match lhs.value.lookup name, rhs.value.lookup name with
    | some value1, some value2 => some (orderBy.direction.applyTo (compareValues value1 value2))
    | _, _ => none

/-- Two documents compare as by the first clause by which they differ. -/
def compareBy : List OrderBy → Document → Document → Option Ordering
  | [], _, _ => some .eq
  | orderBy :: orderBys, lhs, rhs =>
    (orderBy.compare lhs rhs).bind fun comp => if comp = .eq then compareBy orderBys lhs rhs else some comp

/-! ## Queries -/

/-- `limit_type_` and `limit_` -/
inductive Limit where
  | none
  | first (limit : ℕ)
  | last (limit : ℕ)
  deriving DecidableEq

structure Query where
  path : Path
  explicitOrderBys : List OrderBy
  limit : Limit
  deriving DecidableEq

namespace Query

/-- `orderBys`: the key comes last if the query does not order by it. -/
def orderBys (q : Query) : List OrderBy :=
  if q.explicitOrderBys.any fun orderBy => orderBy.field = .keyFieldPath then q.explicitOrderBys
  else
    let lastDirection := (q.explicitOrderBys.getLast?.map OrderBy.direction).getD .ascending
    q.explicitOrderBys ++ [⟨.keyFieldPath, lastDirection⟩]

/-- `Comparator` -/
def comparator (q : Query) : Document → Document → Option Ordering := compareBy q.orderBys

/-- `Direction::FromDescending` -/
def fromDescending (descending : Bool) : Direction := if descending then .descending else .ascending

/-- The query of `order(by:descending:)` on the collection. -/
def order (collection : Path) (field : String) (descending : Bool) : Query :=
  ⟨collection, [⟨.field field, fromDescending descending⟩], .none⟩

/-- `MatchesPathAndCollectionGroup`: exact for the path of a document. -/
def matchesPath (q : Query) (doc : Document) : Bool :=
  if q.path.length % 2 = 0 then q.path = doc.key
  else q.path.length + 1 = doc.key.length && q.path.isPrefixOf doc.key

/-- `MatchesOrderBy` -/
def matchesOrderBy (q : Query) (doc : Document) : Bool :=
  q.explicitOrderBys.all fun orderBy =>
    match orderBy.field with
    | .keyFieldPath => true
    | .field name => (doc.value.lookup name).isSome

/-- `Matches` -/
def Matches (q : Query) (doc : Document) : Bool :=
  doc.isFoundDocument && q.matchesPath doc && q.matchesOrderBy doc

end Query

/-! ## The order of a query -/

instance : Std.TransCmp compareStrings :=
  inferInstanceAs (Std.TransCmp (compareOn fun s : String => utf8 s.toList))

instance : Std.LawfulEqCmp compareStrings where
  eq_of_compare h := String.toList_inj.mp (utf8_injective (Std.LawfulEqCmp.eq_of_compare h))

theorem compareStrings_lt {s t : String} : compareStrings s t = .lt ↔ s < t := by
  have lt_of {s t : String} (h : s < t) : compareStrings s t = .lt := by
    refine (compareLex_lt (fun a b => ?_) fun a b => Std.LawfulEqCmp.compare_eq_iff_eq).mpr ?_
    · exact Std.compare_eq_lt
    · exact utf8_lt (String.lt_iff_toList_lt.mp h)
  refine ⟨fun h => ?_, lt_of⟩
  rcases lt_trichotomy s t with hlt | rfl | hlt
  · exact hlt
  · rw [show compareStrings s s = .eq from Std.ReflCmp.compare_self] at h
    cases h
  · rw [Std.OrientedCmp.gt_iff_lt.mpr (lt_of hlt)] at h
    cases h

/-- The order of values is that of the service. -/
theorem compareValues_eq (left right : FieldValue) :
    compareValues left right = compare left.key right.key := by
  have eq_of {left right : FieldValue} (hlt : compareValues left right = .lt ↔ left.key < right.key)
      (heq : compareValues left right = .eq ↔ left.key = right.key) :
      compareValues left right = compare left.key right.key := by
    cases hc : compareValues left right with
    | lt => exact (compare_lt_iff_lt.mpr (hlt.mp hc)).symm
    | eq => exact (compare_eq_iff_eq.mpr (heq.mp hc)).symm
    | gt =>
      have hne : ¬ left.key < right.key := fun h => by simp [hlt.mpr h] at hc
      have hne' : ¬ left.key = right.key := fun h => by simp [heq.mpr h] at hc
      exact (compare_gt_iff_gt.mpr ((not_lt.mp hne).lt_of_ne fun h => hne' h.symm)).symm
  cases left with
  | integer m =>
    cases right with
    | integer n =>
      refine eq_of ?_ ?_
      · exact Std.compare_eq_lt.trans Sum.Lex.inl_lt_inl_iff.symm
      · have heq : compare m n = .eq ↔ m = n := Std.LawfulEqCmp.compare_eq_iff_eq
        exact heq.trans (by simp [FieldValue.key])
    | string t => exact eq_of (iff_of_true rfl (Sum.Lex.inl_lt_inr _ _)) (iff_of_false nofun nofun)
  | string s =>
    cases right with
    | integer n => exact eq_of (iff_of_false nofun Sum.Lex.not_inr_lt_inl) (iff_of_false nofun nofun)
    | string t =>
      refine eq_of ?_ ?_
      · exact compareStrings_lt.trans Sum.Lex.inr_lt_inr_iff.symm
      · have heq : compareStrings s t = .eq ↔ s = t := Std.LawfulEqCmp.compare_eq_iff_eq
        exact heq.trans (by simp [FieldValue.key])

instance : Std.TransCmp compareValues where
  eq_swap {a b} := by
    rw [compareValues_eq, compareValues_eq]
    exact Std.OrientedCmp.eq_swap
  isLE_trans {a b c} := by
    rw [compareValues_eq, compareValues_eq, compareValues_eq]
    exact Std.TransCmp.isLE_trans

/-! ## The comparator as a total order -/

/-- A field that is missing comes first. -/
def compareFields : Option FieldValue → Option FieldValue → Ordering
  | some left, some right => compareValues left right
  | some _, none => .gt
  | none, some _ => .lt
  | none, none => .eq

def OrderBy.totalOrder (orderBy : OrderBy) (lhs rhs : Document) : Ordering :=
  orderBy.direction.applyTo <|
    match orderBy.field with
    | .keyFieldPath => compareKeys lhs.key rhs.key
    | .field name => compareFields (lhs.value.lookup name) (rhs.value.lookup name)

def totalOrderBy (orderBys : List OrderBy) : Document → Document → Ordering :=
  orderBys.foldr (fun orderBy cmp => compareLex orderBy.totalOrder cmp) fun _ _ => .eq

/-- The comparator of the query, for all documents. -/
def Query.totalOrder (q : Query) : Document → Document → Ordering := totalOrderBy q.orderBys

instance : Std.TransCmp compareFields where
  eq_swap {a b} := by
    cases a <;> cases b <;> try rfl
    next v w => exact (Std.OrientedCmp.eq_swap : compareValues v w = _)
  isLE_trans {a b c} hab hbc := by
    cases a <;> cases b <;> cases c <;> first | rfl | cases hab | cases hbc | skip
    next u v w =>
      have huv : (compareValues u v).isLE = true := hab
      have hvw : (compareValues v w).isLE = true := hbc
      exact (Std.TransCmp.isLE_trans huv hvw : (compareValues u w).isLE = true)

instance : Std.TransCmp compareKeys := inferInstanceAs (Std.TransCmp (List.compareLex compareStrings))

instance : Std.LawfulEqCmp compareKeys := inferInstanceAs (Std.LawfulEqCmp (List.compareLex compareStrings))

theorem compareKeys_lt {p p' : Path} : compareKeys p p' = .lt ↔ p < p' :=
  compareLex_lt (fun _ _ => compareStrings_lt) fun _ _ => Std.LawfulEqCmp.compare_eq_iff_eq

theorem Direction.applyTo_eq {d : Direction} {o : Ordering} : d.applyTo o = .eq ↔ o = .eq := by
  cases d with
  | ascending => rfl
  | descending => exact Ordering.swap_eq_eq

/-- The other direction is that of the arguments. -/
theorem transCmp_applyTo {α : Type} (d : Direction) (cmp : α → α → Ordering) [Std.TransCmp cmp] :
    Std.TransCmp fun a b => d.applyTo (cmp a b) := by
  cases d with
  | ascending => exact inferInstanceAs (Std.TransCmp cmp)
  | descending =>
    have hswap : (fun a b => Direction.descending.applyTo (cmp a b)) = fun a b => cmp b a := by
      funext a b
      exact Std.OrientedCmp.eq_swap.symm
    rw [hswap]
    exact Std.TransCmp.opposite

instance (orderBy : OrderBy) : Std.TransCmp orderBy.totalOrder := by
  obtain ⟨field, d⟩ := orderBy
  cases field with
  | keyFieldPath =>
    have := transCmp_comap compareKeys Document.key
    exact transCmp_applyTo d _
  | field name =>
    have := transCmp_comap compareFields fun doc : Document => doc.value.lookup name
    exact transCmp_applyTo d _

instance (orderBys : List OrderBy) : Std.TransCmp (totalOrderBy orderBys) := by
  induction orderBys with
  | nil =>
    have : Std.OrientedCmp (totalOrderBy []) := ⟨rfl⟩
    exact ⟨fun _ _ => rfl⟩
  | cons orderBy orderBys ih =>
    exact inferInstanceAs (Std.TransCmp (compareLex orderBy.totalOrder (totalOrderBy orderBys)))

instance (q : Query) : Std.TransCmp q.totalOrder := inferInstanceAs (Std.TransCmp (totalOrderBy q.orderBys))

theorem totalOrderBy_cons (orderBy : OrderBy) (orderBys : List OrderBy) (lhs rhs : Document) :
    totalOrderBy (orderBy :: orderBys) lhs rhs = (orderBy.totalOrder lhs rhs).then
      (totalOrderBy orderBys lhs rhs) := rfl

theorem totalOrderBy_eq {orderBys : List OrderBy} {lhs rhs : Document} :
    totalOrderBy orderBys lhs rhs = .eq ↔ ∀ orderBy ∈ orderBys, orderBy.totalOrder lhs rhs = .eq := by
  induction orderBys with
  | nil => exact iff_of_true rfl (by simp)
  | cons orderBy orderBys ih => rw [totalOrderBy_cons, Ordering.then_eq_eq, ih, List.forall_mem_cons]

/-- A query orders by the key. -/
theorem exists_key_order (q : Query) : ∃ d, ⟨.keyFieldPath, d⟩ ∈ q.orderBys := by
  unfold Query.orderBys
  split
  next h =>
    obtain ⟨⟨field, d⟩, ho, hf⟩ := List.any_eq_true.mp h
    obtain rfl : field = .keyFieldPath := by simpa using hf
    exact ⟨d, ho⟩
  · exact ⟨_, List.mem_append_right _ (List.mem_singleton_self _)⟩

/-- Equal documents have the same key. -/
theorem totalOrder_eq {q : Query} {lhs rhs : Document} (h : q.totalOrder lhs rhs = .eq) :
    lhs.key = rhs.key := by
  obtain ⟨d, hd⟩ := exists_key_order q
  have hk : d.applyTo (compareKeys lhs.key rhs.key) = .eq := totalOrderBy_eq.mp h _ hd
  exact Std.LawfulEqCmp.eq_of_compare (Direction.applyTo_eq.mp hk)

/-! ## Comparisons that do not fail -/

/-- A document with the field, or of an order by key. -/
def OrderBy.Has (orderBy : OrderBy) (doc : Document) : Prop :=
  match orderBy.field with
  | .keyFieldPath => True
  | .field name => (doc.value.lookup name).isSome = true

theorem OrderBy.compare_of_has {orderBy : OrderBy} {lhs rhs : Document}
    (hl : orderBy.Has lhs) (hr : orderBy.Has rhs) :
    orderBy.compare lhs rhs = some (orderBy.totalOrder lhs rhs) := by
  obtain ⟨field, d⟩ := orderBy
  cases field with
  | keyFieldPath => rfl
  | field name =>
    obtain ⟨value1, h1⟩ := Option.isSome_iff_exists.mp hl
    obtain ⟨value2, h2⟩ := Option.isSome_iff_exists.mp hr
    simp [OrderBy.compare, OrderBy.totalOrder, h1, h2, compareFields]

theorem compareBy_of_has {orderBys : List OrderBy} {lhs rhs : Document}
    (h : ∀ orderBy ∈ orderBys, orderBy.Has lhs ∧ orderBy.Has rhs) :
    compareBy orderBys lhs rhs = some (totalOrderBy orderBys lhs rhs) := by
  induction orderBys with
  | nil => rfl
  | cons orderBy orderBys ih =>
    obtain ⟨hl, hr⟩ := h orderBy List.mem_cons_self
    rw [compareBy, OrderBy.compare_of_has hl hr, Option.bind_some,
      ih fun o ho => h o (List.mem_cons_of_mem _ ho),
      totalOrderBy_cons]
    cases orderBy.totalOrder lhs rhs <;> rfl

theorem Query.has_of_matches {q : Query} {doc : Document} (h : q.Matches doc = true) {orderBy : OrderBy}
    (ho : orderBy ∈ q.orderBys) : orderBy.Has doc := by
  have hm : q.matchesOrderBy doc = true := (Bool.and_eq_true_iff.mp h).2
  have hexplicit : orderBy ∈ q.explicitOrderBys → orderBy.Has doc := by
    intro ho
    have hb := List.all_eq_true.mp hm orderBy ho
    obtain ⟨field, d⟩ := orderBy
    cases field with
    | keyFieldPath => exact trivial
    | field name => exact hb
  unfold Query.orderBys at ho
  split at ho
  · exact hexplicit ho
  · rcases List.mem_append.mp ho with ho | ho
    · exact hexplicit ho
    · rw [List.mem_singleton.mp ho]
      exact trivial

/-- Documents that the query matches are compared, and none fails. -/
theorem Query.comparator_of_matches {q : Query} {lhs rhs : Document} (hl : q.Matches lhs = true)
    (hr : q.Matches rhs = true) :
    q.comparator lhs rhs = some (q.totalOrder lhs rhs) :=
  compareBy_of_has fun _ ho => ⟨has_of_matches hl ho, has_of_matches hr ho⟩

end BlindBoard.Firestore
