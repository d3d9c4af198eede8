import BlindBoard.Lib.Run
import BlindBoard.Impl.App

/-!
# The system: a launch of the app and its cloud

The user taps, the services serve and answer requests, and the main queue
runs its blocks, in any order (`step`). A request is served once, at some moment
after it is sent, and answered once, at some moment after that; requests overtake
each other freely. Every UUID and every automatic document ID is fresh.

What is not constrained: the triggers of `fetchBoard` may fire at any moment,
and a table may reload at any moment (it does when it is first laid out).
-/

namespace BlindBoard

open Lib

structure State where
  cloud : Cloud
  /-- The identifiers generated so far. -/
  used : List String
  app : App

inductive Action where
  | viewDidLoad
  | viewWillAppear
  | updateData
  | writing
  /-- The Save button of the compose sheet; `url`: `URL(string:)` accepts the search. -/
  | saveBoard (contentTitle content : Option String) (uid : UUID) (url : Bool)
  /-- The user swipes a sheet away. -/
  | swipeDown
  /-- The word table asks for the cell of a row. -/
  | boardRow (row : Nat)
  | didSelectRow (row : Nat)
  /-- The back button of a detail screen. -/
  | back
  | deleteWord
  | cancelDelete
  | confirmDelete
  | addComment
  | saveComment (text : Option String) (now autoID : String)
  | commentRow (screen row : Nat) (select : Bool)
  | reloadTable (screen : Nat)
  /-- The main queue runs its first block. -/
  | mainQueue
  | serve (ticket : Nat) (outcome : Outcome)
  /-- The image search is answered; `fileName` is the UUID of an upload that starts. -/
  | searched (ticket : Nat) (web : Web) (fileName : UUID)
  | answer (ticket : Nat) (now : String)

/-- The service serves `p`, whose request is `r`. -/
def State.serve (s : State) (p : InFlight) (r : Request) (outcome : Outcome) : State :=
  { s with
    cloud := (s.cloud.serve r outcome).1
    app := { s.app.take p.ticket with
      net := (s.app.take p.ticket).net ++
        [⟨p.ticket, p.call, some ⟨(s.cloud.serve r outcome).2, s.app.log.length⟩⟩]
      log := s.app.log ++ [.served p.ticket p.call outcome] } }

def act (s : State) : Action → Option State
  | .viewDidLoad => some { s with app := s.app.viewDidLoad }
  | .viewWillAppear => some { s with app := s.app.viewWillAppear }
  | .updateData => some { s with app := s.app.updateData }
  | .writing =>
    if s.app.pushed = none ∧ s.app.modal = none then some { s with app := s.app.writing } else none
  | .saveBoard contentTitle content uid url =>
    match s.app.modal with
    | some (.addWord sheet) =>
      if uid.uuidString ∈ s.used then none
      else some { s with
        used := uid.uuidString :: s.used, app := s.app.saveBoard sheet contentTitle content uid url }
    | _ => none
  | .swipeDown =>
    match s.app.modal with
    | some (.addWord _) | some (.addComment _ _ _) => some { s with app := { s.app with modal := none } }
    | _ => none
  | .boardRow row =>
    if row < s.app.rows.length then some { s with app := s.app.cellForRowAt row } else none
  | .didSelectRow row =>
    if s.app.pushed = none ∧ s.app.modal = none then
      s.app.rows[row]?.map fun shown => { s with app := s.app.didSelectRow row shown }
    else none
  | .back =>
    if s.app.pushed.isSome ∧ s.app.modal = none then
      some { s with app := { s.app with pushed := none } } else none
  | .deleteWord =>
    match s.app.pushed, s.app.modal with
    | some screen, none => some { s with app := s.app.deleteWord screen }
    | _, _ => none
  | .cancelDelete =>
    match s.app.modal with
    | some (.deleteAlert _) => some { s with app := { s.app with modal := none } }
    | _ => none
  | .confirmDelete =>
    match s.app.modal with
    | some (.deleteAlert screen) => some { s with app := s.app.deleteConfirmed screen }
    | _ => none
  | .addComment =>
    match s.app.pushed, s.app.modal with
    | some screen, none => some { s with app := s.app.addComment screen }
    | _, _ => none
  | .saveComment text now autoID =>
    match s.app.modal with
    | some (.addComment _ screen board) =>
      if autoID ∈ s.used then none
      else some { s with used := autoID :: s.used, app := s.app.saveComment screen board text now autoID }
    | _ => none
  | .commentRow screen row select =>
    match s.app.details screen with
    | some d =>
      -- the table asks only for rows below the count it last obtained
      if row < d.rows then some { s with app := s.app.commentRow screen row select } else none
    | none => none
  | .reloadTable screen =>
    if (s.app.details screen).isSome then some { s with app := s.app.reloadTable screen } else none
  | .mainQueue =>
    match s.app.mainQueue with
    | screen :: rest => some { s with app := { s.app.reloadTable screen with mainQueue := rest } }
    | [] => none
  | .serve ticket outcome =>
    match s.app.find ticket with
    | some p =>
      match p.answer, p.call.request s.app.uid with
      | none, some r => some (s.serve p r outcome)
      | _, _ => none
    | none => none
  | .searched ticket web fileName =>
    match s.app.find ticket with
    | some ⟨_, .dataTask word, _⟩ =>
      if fileName.uuidString ∈ s.used then none
      else some { s with
        used := fileName.uuidString :: s.used
        app := (s.app.take ticket).imagesFetched word web fileName }
    | _ => none
  | .answer ticket now =>
    match s.app.find ticket with
    | some ⟨_, call, some answer⟩ =>
      some { s with app := (s.app.take ticket).answered ticket call answer now }
    | _ => none

/-- A step; there is none after a crash. -/
def step (s : State) (a : Action) : Option State := if s.app.crashed then none else act s a

/-- A launch starts: its collection and its Storage folder are empty. The rest
of the cloud is arbitrary. -/
structure Start (s : State) : Prop where
  launch : s.app = App.launch s.app.uid
  documents : ∀ p, COLLECTION_BOARD s.app.uid <+: p → s.cloud.documents.lookup p = none
  objects : ∀ p, imageReference s.app.uid "" <+: p → s.cloud.objects.lookup p = none

/-- The states of all runs from a start. -/
abbrev Reach (s : State) : Prop := Reachable step Start anyStep s

/-- No request is in flight. -/
def State.Quiet (s : State) : Prop := s.app.net = []

/-- A launch with an empty cloud. -/
def State.empty (uid : Option UUID) : State := ⟨⟨∅, ∅⟩, [], App.launch uid⟩

/-- The state after a run. -/
theorem reach_of_run {s₀ : State} {as : List Action} (h₀ : Start s₀) (h : (run step s₀ as).isSome = true) :
    Reach ((run step s₀ as).get h) :=
  ⟨s₀, as, h₀, runs_of_run (Option.some_get h).symm⟩

theorem start_empty (uid : Option UUID) : Start (State.empty uid) :=
  ⟨rfl, fun _ _ => AList.lookup_empty _, fun _ _ => AList.lookup_empty _⟩

end BlindBoard
