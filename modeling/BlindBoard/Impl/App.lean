import BlindBoard.Impl.ImageService

/-!
# The app: screens, requests in flight, handlers

One launch of the app. The word table (`WordTableViewController`) is the root
of the navigation stack; a word's screen (`DetailViewController`) can be pushed
on it, and at most one modal screen is presented over the stack: the compose
sheet (`AddWordViewController`), the comment sheet (`AddCommentViewController`)
or the alert that confirms a deletion. Screens, sheets and requests are numbered
in the order in which they are made.

A request in flight is the call that made it, with what the call's closure
captured (`Call`), and the answer once the service has served it. The handlers
are named after the functions they are closures of. `log` records what happened
in the launch; no handler reads it.
-/

namespace BlindBoard

open Lib

/-! ## Names in the cloud -/

/-- `FirebaseConstant.COLLECTION_BOARD`, of a launch whose `SceneDelegate.uid` is `uid`. -/
def COLLECTION_BOARD (uid : Option UUID) : Path := segments ((uid.map UUID.uuidString).getD "noneDevice")

/-- `COLLECTION_BOARD.document(word)` -/
def wordDocument (uid : Option UUID) (word : String) : Path := COLLECTION_BOARD uid ++ segments word

/-- `COLLECTION_BOARD.document(word).collection("comments")` -/
def commentCollection (uid : Option UUID) (word : String) : Path := wordDocument uid word ++ ["comments"]

/-- `Storage.storage().reference(withPath:)` of an image. -/
def imageReference (uid : Option UUID) (fileName : String) : Path :=
  segments ("/" ++ (uid.map UUID.uuidString).getD "error" ++ "/" ++ fileName)

/-! ## Calls and events -/

/-- A call to a service, with what its closure captured. Where a call has no
closure (`setData`, `deleteDocument`) the arguments are those of the call. -/
inductive Call where
  | dataTask (word : Word)
  | putData (word : Word) (fileName : String) (imageData : Data)
  | downloadURL (word : Word) (fileName : String)
  | setData (word : Word) (writtenTime imageUrl imageFileName : String)
  | loadData
  | deleteDocument (screen : Nat) (uid : String)
  | deleteObject (screen : Nat) (imageFileName : String)
  | reloadComment (screen : Nat) (uid : String)
  | addDocument (screen : Nat) (uid autoID : String) (comment : Comment)
  deriving DecidableEq

/-- The request a call sends to Firebase (the image search goes elsewhere). -/
def Call.request (uid : Option UUID) : Call → Option Request
  | .dataTask _ => none
  | .putData _ fileName imageData => some (.putData (imageReference uid fileName) imageData)
  | .downloadURL _ fileName => some (.downloadURL (imageReference uid fileName))
  | .setData word writtenTime imageUrl imageFileName =>
    some (.setData (wordDocument uid word.uid) (word.document writtenTime imageUrl imageFileName))
  | .loadData => some (.getDocuments (COLLECTION_BOARD uid) "writtenTime" true)
  | .deleteDocument _ word => some (.deleteDocument (wordDocument uid word))
  | .deleteObject _ imageFileName => some (.deleteObject (imageReference uid imageFileName))
  | .reloadComment _ word => some (.getDocuments (commentCollection uid word) "commentMadeDate" false)
  | .addDocument _ word autoID comment =>
    some (.setData (commentCollection uid word ++ [autoID]) comment.document)

/-- The detail screen that a call's closure keeps alive. -/
def Call.captures : Call → Option Nat
  | .deleteObject screen _ | .addDocument screen _ _ _ => some screen
  | _ => none

/-- An answer, and when the service gave it: the length of the log then. -/
structure Answer where
  reply : Reply
  servedAt : Nat
  deriving DecidableEq

structure InFlight where
  ticket : Nat
  call : Call
  answer : Option Answer
  deriving DecidableEq

inductive Modal where
  | addWord (sheet : Nat)
  | addComment (sheet screen : Nat) (board : Word)
  | deleteAlert (screen : Nat)
  deriving DecidableEq

/-- A view that the loader can be over. -/
inductive View where
  | board
  | addWord (sheet : Nat)
  | detail (screen : Nat)
  deriving DecidableEq

inductive Event where
  | issued (ticket : Nat) (call : Call)
  | served (ticket : Nat) (call : Call) (outcome : Outcome)
  /-- `loadData` hands `words` to its completion, which assigns them to `arr`. -/
  | loaded (ticket servedAt : Nat) (words : List Word)
  /-- `reloadComment` hands `comments` to its completion on a screen that is alive. -/
  | reloaded (screen ticket servedAt : Nat) (comments : List Comment)
  /-- A Save tap on the compose sheet that is accepted. -/
  | saved (sheet : Nat) (word : Word)
  /-- A tap on row `row`, which shows `word`, opens the screen. -/
  | opened (row : Nat) (word : Word) (screen : Nat)
  /-- A confirmed deletion of `word`. -/
  | deleted (screen : Nat) (word : Word)
  /-- The success callback of the add of `word` dismisses what is presented. -/
  | closed (word : Word) (modal : Option Modal)
  deriving DecidableEq

/-! ## Screens -/

/-- A `DetailViewController` with its table. -/
structure Detail where
  board : Word
  arr : List Comment
  /-- The row count the table obtained when it last reloaded. -/
  rows : Nat
  deriving DecidableEq

namespace Detail

/-- `numberOfRowsInSection` -/
def numberOfRows (d : Detail) : Nat := d.arr.length

/-- The table asks for its row count again. -/
def reloadData (d : Detail) : Detail := { d with rows := d.numberOfRows }

/-- `cellForRowAt`: the comment of the row; `none` where indexing `arr` traps. -/
def cellForRowAt (d : Detail) (row : Nat) : Option Comment := d.arr[row]?

/-- `didSelectRowAt`: the text it prints; `none` where indexing `arr` traps. -/
def didSelectRowAt (d : Detail) (row : Nat) : Option String := d.arr[row]?.map Comment.comment

end Detail

structure App where
  /-- `SceneDelegate.uid` -/
  uid : Option UUID
  /-- `WordTableViewController.arr` -/
  arr : List Word
  /-- The words that the rows of the word table show. -/
  rows : List Word
  details : Nat → Option Detail
  /-- The detail screen on the navigation stack. -/
  pushed : Option Nat
  modal : Option Modal
  /-- The view that `UIViewController.hud` was last shown in. -/
  hud : Option View
  /-- The screens whose `reloadData` waits on the main queue. -/
  mainQueue : List Nat
  net : List InFlight
  next : Nat
  log : List Event
  /-- An array was indexed out of range. -/
  crashed : Bool

namespace App

/-- The state in which a launch starts. -/
def launch (uid : Option UUID) : App where
  uid
  arr := []
  rows := []
  details _ := none
  pushed := none
  modal := none
  hud := none
  mainQueue := []
  net := []
  next := 0
  log := []
  crashed := false

def record (a : App) (e : Event) : App := { a with log := a.log ++ [e] }

/-- Sends a call's request. -/
def issue (a : App) (call : Call) : App :=
  { a with net := a.net ++ [⟨a.next, call, none⟩], next := a.next + 1, log := a.log ++ [.issued a.next call] }

def find (a : App) (ticket : Nat) : Option InFlight := a.net.find? fun p => p.ticket = ticket

/-- A request that is no longer in flight. -/
def take (a : App) (ticket : Nat) : App := { a with net := a.net.filter fun p => p.ticket ≠ ticket }

/-- Whether a `DetailViewController` is alive: on the stack, presenting a
screen that refers to it, or captured by a closure that has not run. -/
def alive (a : App) (screen : Nat) : Bool :=
  a.pushed = some screen ||
  (match a.modal with
    | some (.addComment _ d _) | some (.deleteAlert d) => d = screen
    | _ => false) ||
  a.mainQueue.contains screen || a.net.any fun p => p.call.captures = some screen

def viewAlive (a : App) : View → Bool
  | .board => true
  | .addWord sheet => a.modal = some (.addWord sheet)
  | .detail screen => a.alive screen

/-- The view the loader is over: it vanishes with its view. -/
def loader (a : App) : Option View := a.hud.filter a.viewAlive

/-- `showLoader(_:)` of the controller of `view`: `hud.show(in:)` is ignored
while the loader is over a live view, `hud.dismiss` removes it from any. -/
def showLoader (a : App) (view : View) : Bool → App
  | true => if a.loader.isSome then a else { a with hud := some view }
  | false => { a with hud := none }

/-! ## `WordTableViewController` -/

/-- `fetchBoard`, which calls `loadData`. -/
def fetchBoard (a : App) : App := a.issue .loadData

/-- `viewDidLoad` -/
def viewDidLoad (a : App) : App := a.fetchBoard

/-- `viewWillAppear` -/
def viewWillAppear (a : App) : App := a.fetchBoard

/-- `updateData`, the action of the refresh control. -/
def updateData (a : App) : App := a.fetchBoard

/-- The answer to `loadData`: `arr = boards` and `reloadData` in one turn. -/
def boardLoaded (a : App) (ticket servedAt : Nat) (documents : List (Path × Dictionary)) : App :=
  let boards := documents.map fun d => Word.ofDictionary d.2
  { a with arr := boards, rows := boards, log := a.log ++ [.loaded ticket servedAt boards] }

/-- `writing` presents a new compose sheet. -/
def writing (a : App) : App := { a with modal := some (.addWord a.next), next := a.next + 1 }

/-- `self.dismiss(animated:)` of the word table: whatever is presented goes. -/
def dismiss (a : App) : App := { a with modal := none }

/-- `addContent`, up to the image search; `url` is whether `URL(string:)`
accepts the search's text. -/
def addContent (a : App) (word : Word) (url : Bool) : App :=
  if url then a.issue (.dataTask word) else a

/-- `imageUpload` under the name `fileName`. -/
def imageUpload (a : App) (word : Word) (image : UIImage) (web : Web) (fileName : UUID) : App :=
  match web.jpegData image with
  | some imageData => a.issue (.putData word fileName.uuidString imageData)
  | none => a

/-- The answer to the image search in `addContent`. -/
def imagesFetched (a : App) (word : Word) (web : Web) (fileName : UUID) : App :=
  match ImageService.imagesFetched web with
  | some image =>
    if image = UIImage.empty then a.showLoader .board false else a.imageUpload word image web fileName
  | none => a

/-- The completion of `imageUpload` in `addContent`: the word is written, the
sheet dismissed, the board fetched and the loader hidden. -/
def addCompleted (a : App) (word : Word) (imageUrl fileName now : String) : App :=
  let a := a.issue (.setData word now imageUrl fileName)
  let a := (a.record (.closed word a.modal)).dismiss
  a.fetchBoard.showLoader .board false

/-- `cellForRowAt` of the word table. -/
def cellForRowAt (a : App) (row : Nat) : App := if (a.arr[row]?).isSome then a else { a with crashed := true }

/-- `didSelectRowAt` pushes a screen for `arr[row]`, whose `viewDidLoad`
fetches the comments. -/
def didSelectRow (a : App) (row : Nat) (shown : Word) : App :=
  match a.arr[row]? with
  | some board =>
    let a' : App :=
      { a with
        details := Function.update a.details a.next (some ⟨board, [], 0⟩), pushed := some a.next
        next := a.next + 1, log := a.log ++ [.opened row shown a.next] }
    a'.issue (.reloadComment a.next board.uid)
  | none => { a with crashed := true }

/-! ## `AddWordViewController` -/

/-- `saveBoard` with the texts of the two fields. -/
def saveBoard (a : App) (sheet : Nat) (contentTitle content : Option String)
    (uid : UUID) (url : Bool) : App :=
  if contentTitle = some "" ∨ content = some "" then a
  else
    let word : Word := ⟨contentTitle.getD "no item", content.getD "no content", uid.uuidString, "", ""⟩
    ((a.showLoader (.addWord sheet) true).record (.saved sheet word)).addContent word url

/-! ## `DetailViewController` -/

/-- `fetchComment`, which calls `reloadComment`. -/
def fetchComment (a : App) (screen : Nat) : App :=
  match a.details screen with
  | some d => a.issue (.reloadComment screen d.board.uid)
  | none => a

/-- The answer to `reloadComment`: on a screen that is alive, `arr` is assigned
at once and `reloadData` deferred. -/
def commentsReloaded (a : App) (screen ticket servedAt : Nat) (documents : List (Path × Dictionary)) : App :=
  match a.details screen with
  | some d =>
    if a.alive screen then
      let comments := documents.map fun d => Comment.ofDictionary d.2
      { a with
        details := Function.update a.details screen (some { d with arr := comments })
        mainQueue := a.mainQueue ++ [screen], log := a.log ++ [.reloaded screen ticket servedAt comments] }
    else a
  | none => a

/-- A row callback of the comment table. -/
def commentRow (a : App) (screen row : Nat) (select : Bool) : App :=
  match a.details screen with
  | some d =>
    if select then (if (d.didSelectRowAt row).isSome then a else { a with crashed := true })
    else (if (d.cellForRowAt row).isSome then a else { a with crashed := true })
  | none => a

/-- The table of a screen reloads. -/
def reloadTable (a : App) (screen : Nat) : App :=
  { a with details := Function.update a.details screen ((a.details screen).map Detail.reloadData) }

/-- `deleteWord` presents the alert. -/
def deleteWord (a : App) (screen : Nat) : App := { a with modal := some (.deleteAlert screen) }

/-- The handler of the alert's delete action; the alert is gone when it has run. -/
def deleteConfirmed (a : App) (screen : Nat) : App :=
  match a.details screen with
  | some d =>
    let a := (a.showLoader (.detail screen) true).record (.deleted screen d.board)
    { (a.issue (.deleteDocument screen d.board.uid)).issue (.deleteObject screen d.board.imageFileName) with
      modal := none }
  | none => a

/-- The Storage delete has succeeded: the loader goes, and the screen is
popped if it is still on the stack. -/
def objectDeleted (a : App) (screen : Nat) : App :=
  let a := a.showLoader (.detail screen) false
  if a.pushed = some screen then { a with pushed := none } else a

/-- `addComment` presents the comment sheet. -/
def addComment (a : App) (screen : Nat) : App :=
  match a.details screen with
  | some d => { a with modal := some (.addComment a.next screen d.board), next := a.next + 1 }
  | none => a

/-- `saveComment` of the comment sheet: the delegate adds the document, and the
sheet dismisses itself. -/
def saveComment (a : App) (screen : Nat) (board : Word) (text : Option String) (now autoID : String) : App :=
  { a.issue (.addDocument screen board.uid autoID ⟨text.getD "", now⟩) with modal := none }

/-! ## Answers from Firebase -/

/-- Runs the closure of a call that is answered; `now` is `Date().ISO8601Format()`. -/
def answered (a : App) (ticket : Nat) (call : Call) (answer : Answer) (now : String) : App :=
  match call, answer.reply with
  | .putData word fileName _, .done => a.issue (.downloadURL word fileName)
  | .downloadURL word fileName, .url imageUrl => a.addCompleted word imageUrl fileName now
  | .loadData, .documents documents => a.boardLoaded ticket answer.servedAt documents
  | .deleteObject screen _, .done => a.objectDeleted screen
  | .reloadComment screen _, .documents documents =>
    a.commentsReloaded screen ticket answer.servedAt documents
  -- the error is printed, and the comments are fetched either way
  | .addDocument screen _ _ _, _ => a.fetchComment screen
  | _, _ => a

end App

end BlindBoard
