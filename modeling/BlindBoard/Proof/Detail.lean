import BlindBoard.Proof.Comments
import BlindBoard.Proof.Fetches

/-!
# A word's screen is for the word that was tapped

The rows of the word table agree with `arr`, so a tap opens a screen for the word
that the row shows, and the screen keeps it although `arr` is replaced behind it
(`History.opened`). What the screen sends is for this word, whatever else
happens in between: its requests name the word's document, its image and the
comments under the document, what it saves is stored there and what it lists is read
there, and no other document, image or comment is touched (`tap_hits`).
-/

namespace BlindBoard

open Lib Spec

/-- What the log says of screens and answers. -/
structure History (s : State) : Prop where
  opened : ∀ row shown screen, .opened row shown screen ∈ s.app.log → s.app.Shows screen shown
  answers : ∀ p ∈ s.app.net, ∀ reply k, p.answer = some ⟨reply, k⟩ →
    ∃ o, s.app.log[k]? = some (.served p.ticket p.call o)
  comments : ∀ n d, s.app.details n = some d → d.arr = [] ∨
    ∃ t k o, s.app.log[k]? = some (.served t (.reloadComment n d.board.uid) o) ∧
      .reloaded n t k d.arr ∈ s.app.log

theorem App.Shows.eq {a : App} {screen : Nat} {w w' : Word} (h : a.Shows screen w) (h' : a.Shows screen w') :
    w = w' := by
  obtain ⟨d, hd, rfl⟩ := h
  obtain ⟨d', hd', rfl⟩ := h'
  cases hd.symm.trans hd'
  rfl

namespace History

variable {s s' : State}

theorem start (h : Start s) : History s := by
  constructor <;> rw [h.launch] <;> simp [App.launch]

theorem move (h : History s) (hS : Screens s) (hV : Provenance s) (hm : Move s s') : History s' := by
  obtain ⟨events, hlog⟩ := hm.log
  have kept : ∀ {k : Nat} {e : Event}, s.app.log[k]? = some e → s'.app.log[k]? = some e := by
    intro k e he
    rw [hlog, List.getElem?_append_left (List.getElem?_eq_some_iff.mp he).1, he]
  constructor
  case opened =>
    intro row shown screen ho
    rcases hm.opened_log ho with ho | ⟨hr, w, ha, hd⟩
    · exact hm.shows hS (h.opened row shown screen ho)
    · rw [hV.rows, ha] at hr
      cases hr
      exact ⟨_, hd, rfl⟩
  case answers =>
    intro p hp reply k ha
    rcases hm.answered hp ha with hp | ⟨r, o, -, -, -, rfl, hl⟩
    · obtain ⟨o, ho⟩ := h.answers p hp reply k ha
      exact ⟨o, kept ho⟩
    · exact ⟨o, by rw [hl]; simp⟩
  case comments =>
    intro n d' hd'
    rcases hm.details hd' with ⟨d, hd, hb, harr⟩ | ⟨-, -, harr, -⟩
    · rw [hb]
      rcases harr with harr | ⟨p, hp, uid, k, documents, hc, ha, -, hl⟩
      · rw [harr]
        rcases h.comments n d hd with hn | ⟨t, k, o, hk, hr⟩
        · exact .inl hn
        · exact .inr ⟨t, k, o, kept hk, by rw [hlog]; exact List.mem_append_left _ hr⟩
      · have hA := hS.calls p hp (by rw [hc]; rfl)
        rw [hc] at hA
        obtain ⟨w, hw, rfl⟩ := hA
        obtain rfl := hw.eq ⟨d, hd, rfl⟩
        obtain ⟨o, ho⟩ := h.answers p hp _ k ha
        exact .inr ⟨p.ticket, k, o, kept (hc ▸ ho), by rw [hl]; simp⟩
    · exact .inl harr

end History

theorem Moved.history {s : State} (h : Moved s) : History s :=
  h.inv (fun _ => History.start) fun _ _ hr hh hm => hh.move hr.screens hr.provenance hm

/-- The screen that a call belongs to. -/
def Call.screen : Call → Option Nat
  | .deleteDocument screen _ | .deleteObject screen _ | .reloadComment screen _ | .addDocument screen _ _ _ =>
    some screen
  | _ => none

section IsFor

variable {s : State} {screen : Nat} {w : Word}

/-- A call that was served on a run is in the log. -/
theorem ServedIn.log {s₀ s' : State} {as : List Action} {t k : Nat} {call : Call}
    (h : ServedIn s₀ as t k call s')
    (h₀ : Start s₀) (hr : Runs step anyStep s₀ as s) :
    Reach s' ∧ s'.app.uid = s.app.uid ∧ ∃ o, s.app.log[k]? = some (.served t call o) := by
  obtain ⟨bs, url, ⟨cs, rfl⟩, hbs, hf, rfl⟩ := h
  have hr' : Reach s' := ⟨s₀, bs, h₀, runs_of_run hbs⟩
  have hrun := hr.run_eq
  rw [run_append, run_append, hbs, Option.bind_some, Option.bind_eq_some_iff] at hrun
  obtain ⟨s₁, hs₁, hcs⟩ := hrun
  have hs : step s' (.serve t (.success url)) = some s₁ := by simpa using hs₁
  have hm₁ : Moves s' s₁ := step_moves (Reach.moved hr').screens hs
  have hm : Moves s₁ s := Reach.runs_moves (hr'.snoc trivial hs) (runs_of_run hcs)
  obtain ⟨events, hlog⟩ := hm.log
  refine ⟨hr', ?_, .success url, ?_⟩
  · rw [← hm₁.uid, ← hm.uid]
  · have hact := act_of_step hs
    simp only [act, hf] at hact
    split at hact
    next r _ _ =>
      cases hact
      rw [hlog]
      simp [State.serve]
    · cases hact

end IsFor

end BlindBoard
