import BlindBoard.Spec.Board
import BlindBoard.Impl.Timeline

/-!
# The board that launches share

What launches with one identifier make together. Each of them has a log, and
the services serve their requests in one order; `sharedLog` merges the logs of
an identifier in that order. The word list is what the merged log says is
written and not deleted (`WordList`), and the comments of a word are what it
says was added to the word (`CommentList`), whichever launch did it.
-/

namespace BlindBoard

namespace Spec

/-- The events of the launches of `u`, in the order of the history. -/
def sharedLog {L : Type} (uid : L → Option UUID) (u : Option UUID)
    (history : List (L × Event)) : List Event :=
  (history.filter fun x => uid x.1 = u).map Prod.snd

@[simp] theorem mem_sharedLog {L : Type} {uid : L → Option UUID} {u : Option UUID}
    {history : List (L × Event)}
    {e : Event} : e ∈ sharedLog uid u history ↔ ∃ l, uid l = u ∧ (l, e) ∈ history := by
  simp [sharedLog, and_comm]

/-- The document of the word `saved` was written. -/
def WritesWord (log : List Event) (saved : Word) (writtenTime imageUrl imageFileName : String) : Prop :=
  ∃ t o, .served t (.setData saved writtenTime imageUrl imageFileName) (.success o) ∈ log

/-- A comment was added to the word `uid`. -/
def AddsComment (log : List Event) (uid autoID : String) (comment : Comment) : Prop :=
  ∃ t screen o, .served t (.addDocument screen uid autoID comment) (.success o) ∈ log

/-- The words that are listed, each once, the latest text first. -/
structure WordList (log : List Event) (words : List Word) : Prop where
  mem : ∀ w, w ∈ words ↔ Listed log w
  nodup : (words.map Word.uid).Nodup
  newest : ∃ times : List String, List.Forall₂ (fun time w =>
    ∃ saved : Word, saved.uid = w.uid ∧ WritesWord log saved time w.imageUrl w.imageFileName) times words ∧
      times.Pairwise fun a b => b ≤ a

/-- The comments that were added to a word, each once, the earliest text first. -/
def CommentList (log : List Event) (uid : String) (comments : List Comment) : Prop :=
  ∃ made : List (String × Comment), comments = made.map Prod.snd ∧ (made.map Prod.fst).Nodup ∧
    (∀ x, x ∈ made ↔ AddsComment log uid x.1 x.2) ∧
    made.Pairwise fun x y => toLex (x.2.commentMadeDate, x.1) ≤ toLex (y.2.commentMadeDate, y.1)

end Spec

/-! ## The common history -/

namespace Timeline

variable {L : Type}

/-- What the launches record, in one order. -/
def events (T : Timeline L) : List (L × Event) := T.history.map Prod.snd

/-- The call `t` of the launch `l` was sent, and later, before `m`, a service served it, when `P`
held of what the launches with the identifier of `l` had recorded. -/
def Answered (T : Timeline L) (l : L) (t : Nat) (call : Call) (m : Nat) (P : List Event → Prop) : Prop :=
  ∃ i n o, i < n ∧ n < m ∧ T.events[i]? = some (l, .issued t call) ∧
    T.events[n]? = some (l, .served t call (.success o)) ∧
    P (Spec.sharedLog T.world.uid (T.world.uid l) (T.events.take n))

end Timeline

end BlindBoard
