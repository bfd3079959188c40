import TrainVla.Interaction.Soundness

/-! What is proved for the parties of one system carries over to another system whose parties go by
other names, as long as they do nothing else to the shared state. -/
namespace Interaction

variable {Op Op' C : Type} {R : C → Type} {E α σ X V : Type}

namespace Label

def map (f : Op' → Op) : Label Op' X V → Label Op X V
  | spawn op => spawn (f op)
  | serve i x => serve i x
  | start op => start (f op)
  | work x => work x
  | crash => crash
  | whole op xs => whole (f op) xs
  | cut op xs => cut (f op) xs
  | event v => event v

end Label

def Record.map (f : Op' → Op) (r : Record Op' C σ) : Record Op C σ where
  op := f r.op
  before := r.before
  call := r.call
  after := r.after

/-- The assertions about a party are those about the one it stands for. -/
def Outline.comap (O : Outline Op C σ) (f : Op' → Op) : Outline Op' C σ where
  inv := O.inv
  rely op := O.rely (f op)
  pre op := O.pre (f op)
  cond op := O.cond (f op)

/-- The two systems differ in the names of the parties and in what they run. -/
structure Machine.Renames (M' : Machine Op' C R E σ X V) (M : Machine Op C R E σ X V)
    (f : Op' → Op) : Prop where
  exec : M'.exec = M.exec
  occur : M'.occur = M.occur
  threaded : ∀ op, M'.threaded op = M.threaded (f op)

section

variable {O : Outline Op C σ} {f : Op' → Op} {M' : Machine Op' C R E σ X V}
  {M : Machine Op C R E σ X V} {permit : Label Op X V → Prop}

theorem Safe.comap {exec : X → σ → (c : C) → Option (R c × σ)} {op : Op'}
    {post : Except E α → σ → Prop} {p : Prog C R E α} {s : σ}
    (h : Safe exec O (f op) post p s) : Safe exec (O.comap f) op post p s := by
  induction p generalizing s with
  | pure a => exact h
  | raise e => exact h
  | call c k ih =>
    intro t ht hi
    obtain ⟨hpre, hk⟩ := h t ht hi
    exact ⟨hpre, fun hc x r t' he => ih r (hk hc x r t' he)⟩

theorem Active.comap {op : Op'} (h : Active (fun l : Label Op' X V => permit (l.map f)) op) :
    Active permit (f op) := by
  rcases h with h | h | ⟨xs, h⟩
  · exact .inl h
  · exact .inr (.inl h)
  · exact .inr (.inr ⟨xs, h⟩)

theorem InFlight.comap (hM : M'.Renames M f) {op : Op'}
    (h : InFlight M' (fun l => permit (l.map f)) op) : InFlight M permit (f op) := by
  unfold InFlight at h
  rw [hM.threaded] at h
  exact h

theorem Overlap.comap (hM : M'.Renames M f) {op op' : Op'}
    (h : Overlap M' (fun l => permit (l.map f)) op op') : Overlap M permit (f op) (f op') := by
  obtain ⟨hfly, hthread⟩ := h
  rw [hM.threaded, hM.threaded] at hthread
  exact ⟨hfly.comap hM, hthread⟩

theorem Outline.Steps.comap (hM : M'.Renames M f) (h : O.Steps M permit) :
    (O.comap f).Steps M' fun l => permit (l.map f) where
  preorders := ⟨fun op => h.preorders.refl (f op), fun op => h.preorders.trans (f op)⟩
  exec op x s c r s' hop hi hpre hc he := by
    rw [hM.exec] at he
    obtain ⟨hi', hrely⟩ := h.exec (f op) x s c r s' hop.comap hi hpre hc he
    exact ⟨hi', fun op' hover => hrely (f op') (hover.comap hM)⟩
  occur v s s' hv hi he := by
    rw [hM.occur] at he
    obtain ⟨hi', hrely⟩ := h.occur v s s' hv hi he
    exact ⟨hi', fun op' hfly => hrely (f op') (hfly.comap hM)⟩

/-- What is known of a call of the one system is known of it in the other one. -/
theorem Record.Known.map (hM : M'.Renames M f) {r : Record Op' C σ}
    (h : r.Known M' (O.comap f)) : (r.map f).Known M O where
  inv := h.inv
  pre := h.pre
  exec := by
    obtain ⟨x, a, he⟩ := h.exec
    rw [hM.exec] at he
    exact ⟨x, a, he⟩

end

end Interaction
