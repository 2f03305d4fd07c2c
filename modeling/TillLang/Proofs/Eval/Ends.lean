/-
  TillLang.Proofs.Eval.Ends — how parts of a run end.

  `Run.Ends m w ok bad` says that `m`, started in the world `w`, ends with a result and a world
  that satisfy `ok`, or for a cause and in a world that satisfy `bad`. There is one rule for each
  way in which runs are put together. Worlds that differ in what was logged or displayed only have
  the same arena, and the rules for those steps hand on no more than that.
-/

import TillLang.Eval.Machine
import TillLang.Proofs.Store.Outline

namespace TillLang.Eval

namespace Run

variable {α β : Type}

/-- How a part of a run ends. -/
def Ends (m : Run α) (w : World) (ok : α → World → Prop) (bad : Stop → World → Prop) : Prop :=
  match m w with
  | (.ok a, w') => ok a w'
  | (.error cause, w') => bad cause w'

variable {m : Run α} {w : World} {ok ok' : α → World → Prop} {bad bad' : Stop → World → Prop}

theorem Ends.mono (h : m.Ends w ok bad) (hok : ∀ a w', ok a w' → ok' a w')
    (hbad : ∀ cause w', bad cause w' → bad' cause w') : m.Ends w ok' bad' := by
  unfold Ends at h ⊢
  split at h
  · exact hok _ _ h
  · exact hbad _ _ h

/-- How a part of a run ends holds of the result that it is known to have. -/
theorem Ends.of_ok {a : α} {w' : World} (h : m.Ends w ok bad) (hrun : m w = (.ok a, w')) : ok a w' := by
  unfold Ends at h
  rwa [hrun] at h

theorem Ends.of_error {cause : Stop} {w' : World} (h : m.Ends w ok bad) (hrun : m w = (.error cause, w')) :
    bad cause w' := by
  unfold Ends at h
  rwa [hrun] at h

theorem Ends.and (h : m.Ends w ok bad) (h' : m.Ends w ok' bad') :
    m.Ends w (fun a w' => ok a w' ∧ ok' a w') fun cause w' => bad cause w' ∧ bad' cause w' := by
  unfold Ends at h h' ⊢
  split
  · next heq =>
    rw [heq] at h h'
    exact ⟨h, h'⟩
  · next heq =>
    rw [heq] at h h'
    exact ⟨h, h'⟩

@[simp] theorem ends_pure {a : α} : (Run.pure a).Ends w ok bad ↔ ok a w := Iff.rfl

@[simp] theorem ends_return {a : α} : (Pure.pure a : Run α).Ends w ok bad ↔ ok a w := Iff.rfl

@[simp] theorem ends_stop {cause : Stop} : (stop cause : Run α).Ends w ok bad ↔ bad cause w := Iff.rfl

@[simp] theorem ends_fail {reason : Reason} {position : Option Position} :
    (fail reason position : Run α).Ends w ok bad ↔ bad (.failure reason position) w := Iff.rfl

@[simp] theorem ends_bind {f : α → Run β} {ok : β → World → Prop} :
    (m >>= f).Ends w ok bad ↔ m.Ends w (fun a w' => (f a).Ends w' ok bad) bad := by
  show (Run.bind m f).Ends w ok bad ↔ _
  unfold Ends Run.bind
  rcases m w with ⟨result, w'⟩
  cases result <;> rfl

theorem ends_read {f : Arena → Except Store.Fault α} :
    (read f).Ends w ok bad ↔
      match f w.arena with
      | .ok a => ok a w
      | .error cause => bad (storeStop cause) w := by
  unfold Ends read
  cases f w.arena <;> rfl

theorem ends_write {f : Arena → Except Store.Fault Arena} {ok : Unit → World → Prop} :
    (write f).Ends w ok bad ↔
      match f w.arena with
      | .ok arena => ok () { w with arena }
      | .error cause => bad (storeStop cause) w := by
  unfold Ends write
  cases f w.arena <;> rfl

theorem Ends.read {f : Arena → Except Store.Fault α} {a : α} (hf : f w.arena = .ok a) (h : ok a w) :
    (Run.read f).Ends w ok bad := by
  rw [ends_read, hf]
  exact h

theorem Ends.write {f : Arena → Except Store.Fault Arena} {ok : Unit → World → Prop} {arena : Arena}
    (hf : f w.arena = .ok arena) (h : ok () { w with arena }) : (Run.write f).Ends w ok bad := by
  rw [ends_write, hf]
  exact h

theorem Ends.log {line : String} {ok : Unit → World → Prop}
    (h : ∀ w' : World, w'.arena = w.arena → ok () w') : (Run.log line).Ends w ok bad := by
  unfold Ends Run.log
  by_cases hopen : w.logOpen
  · rw [if_pos hopen]
    exact h _ rfl
  · rw [if_neg hopen]
    exact h _ rfl

theorem Ends.debug {level threshold : Nat} {line : Run String} {ok : Unit → World → Prop}
    (hline : line.Ends w (fun _ w' => w'.arena = w.arena) bad)
    (h : ∀ w' : World, w'.arena = w.arena → ok () w') : (Run.debug level threshold line).Ends w ok bad := by
  unfold Run.debug
  by_cases ht : threshold ≤ level
  · rw [if_pos ht, ends_bind]
    exact hline.mono (fun _ _ hw => Ends.log fun w' hw' => h w' (hw'.trans hw)) fun _ _ hb => hb
  · rw [if_neg ht]
    exact h w rfl

theorem ends_inChild {parent : Nat} {body : Nat → Run α} :
    (inChild parent body).Ends w ok bad ↔
      (body w.arena.frames.length).Ends { w with arena := (w.arena.push parent).1 }
        (fun a w' => ok a { w' with arena := w'.arena.release w.arena.frames.length })
        (fun cause w' => bad cause { w' with arena := w'.arena.release w.arena.frames.length }) := by
  rw [← Arena.handle_push parent]
  unfold Ends inChild
  dsimp only
  rcases body (w.arena.push parent).2 { w with arena := (w.arena.push parent).1 } with ⟨_ | _, w'⟩
  · rfl
  · rfl

theorem ends_catchReturn {m : Run Unit} {ok : Value → World → Prop} :
    (catchReturn m).Ends w ok bad ↔
      m.Ends w (fun _ w' => ok .unit w') fun cause w' =>
        match cause with
        | .returned value => ok value w'
        | cause => bad cause w' := by
  unfold Ends catchReturn
  rcases m w with ⟨_ | _, w'⟩
  · rename_i cause
    cases cause <;> rfl
  · rfl

end Run

/-- A loop keeps what its condition and its body keep. -/
theorem Machine.ends_loop {condition : Run Bool} {body : Run Unit} {I : World → Prop} {bad : Stop → World → Prop}
    (hcond : ∀ w, I w → condition.Ends w (fun _ w' => I w') bad)
    (hbody : ∀ w, I w → body.Ends w (fun _ w' => I w') bad) (hend : ∀ w, I w → bad .endless w) :
    ∀ rounds w, I w → (Machine.loop condition body rounds).Ends w (fun _ w' => I w') bad := by
  intro rounds
  induction rounds with
  | zero => exact hend
  | succ rounds ih =>
    intro w hw
    rw [Machine.loop, Run.ends_bind]
    refine (hcond w hw).mono (fun holds w₁ hw₁ => ?_) fun _ _ hb => hb
    cases holds with
    | false => exact hw₁
    | true =>
      rw [if_pos rfl, Run.ends_bind]
      exact (hbody w₁ hw₁).mono (fun _ w₂ hw₂ => ih w₂ hw₂) fun _ _ hb => hb

end TillLang.Eval
