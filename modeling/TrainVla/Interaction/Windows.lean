import TrainVla.Interaction.Gate
import Mathlib.Data.List.Sublists

/-! Requests that look a key up and take it later. Whoever takes it finds it free, unless somebody
else has taken it between the two calls. -/
namespace Interaction

variable {Op C : Type} {R : C → Type} {E K σ X V : Type}

/-- A call, and the party that performed it: a request, by its place in the pool, or the thread. -/
structure Turn (Op C σ : Type) where
  party : Option ℕ
  record : Record Op C σ

namespace Label

/-- Labels of schedules in which every call is a step of its own. -/
def Single : Label Op X V → Prop
  | whole _ _ => False
  | cut _ _ => False
  | _ => True

/-- The party whose call it is, if it is a single call. -/
def party? : Label Op X V → Option (Option ℕ)
  | serve i _ => some (some i)
  | work _ => some none
  | _ => none

end Label

/-- The calls of a run of single calls, each with its party. -/
def turns (ls : List (Label Op X V)) (rs : List (Record Op C σ)) : List (Turn Op C σ) :=
  List.zipWith Turn.mk (ls.filterMap Label.party?) rs

theorem turns_serve (i : ℕ) (x : X) (r : Record Op C σ) :
    turns [(.serve i x : Label Op X V)] [r] = [⟨some i, r⟩] := rfl

theorem turns_work (x : X) (r : Record Op C σ) :
    turns [(.work x : Label Op X V)] [r] = [⟨none, r⟩] := rfl

/-- Which calls look a key up, and which ones take it. -/
structure Lookup (C K : Type) where
  looks : C → Option K
  takes : C → Option K

namespace Lookup

variable (L : Lookup C K)

/-- If the first and the last call are a lookup of one party and its taking of the key, then the
call in between does not take it. -/
def Apart : List (Turn Op C σ) → Prop
  | [a, x, b] => a.party = b.party → L.looks a.record.call ≠ none →
      L.looks a.record.call = L.takes b.record.call → L.takes x.record.call ≠ L.takes b.record.call
  | _ => True

/-- Nobody takes a key between another party's lookup of it and its taking of it. -/
def Unbroken (ts : List (Turn Op C σ)) : Prop := ∀ a x b, List.Sublist [a, x, b] ts → L.Apart [a, x, b]

variable {L}

instance [DecidableEq K] : (ts : List (Turn Op C σ)) → Decidable (L.Apart ts)
  | [] | [_] | [_, _] | _ :: _ :: _ :: _ :: _ => isTrue trivial
  | [a, x, b] => inferInstanceAs (Decidable (a.party = b.party → L.looks a.record.call ≠ none →
      L.looks a.record.call = L.takes b.record.call → L.takes x.record.call ≠ L.takes b.record.call))

theorem unbroken_iff_sublistsLen {ts : List (Turn Op C σ)} :
    (∀ triple ∈ ts.sublistsLen 3, L.Apart triple) ↔ L.Unbroken ts := by
  constructor
  · intro h a x b hsub
    exact h _ (List.mem_sublistsLen.mpr ⟨hsub, rfl⟩)
  · intro h triple hmem
    obtain ⟨hsub, hlength⟩ := List.mem_sublistsLen.mp hmem
    obtain ⟨a, x, b, rfl⟩ := List.length_eq_three.mp hlength
    exact h a x b hsub

instance [DecidableEq K] (ts : List (Turn Op C σ)) : Decidable (L.Unbroken ts) :=
  decidable_of_iff _ unbroken_iff_sublistsLen

end Lookup

namespace Machine

variable {M : Machine Op C R E σ X V} {c c' : Conf Op C R E σ} {l : Label Op X V}
  {ls : List (Label Op X V)} {rs : List (Record Op C σ)}

/-- A step that is a call, or none. -/
theorem step_party (hl : l.Single) (hs : M.step c l = some (rs, c')) :
    l.party? = none ∧ rs = [] ∨ ∃ party r, l.party? = some party ∧ rs = [r] := by
  cases l with
  | spawn op => exact .inl ⟨rfl, (step_spawn hs).2.1⟩
  | serve i x =>
    obtain ⟨op, p, r, p', s, -, -, rfl, -⟩ := step_serve hs
    exact .inr ⟨some i, r, rfl, rfl⟩
  | start op => exact .inl ⟨rfl, (step_start hs).2.1⟩
  | work x =>
    obtain ⟨op, p, r, p', s, -, -, rfl, -⟩ := step_work hs
    exact .inr ⟨none, r, rfl, rfl⟩
  | crash =>
    simp only [step, Option.some.injEq, Prod.mk.injEq] at hs
    exact .inl ⟨rfl, hs.1.symm⟩
  | whole op xs => exact hl.elim
  | cut op xs => exact hl.elim
  | event v =>
    obtain ⟨s, -, rfl, -⟩ := step_event hs
    exact .inl ⟨rfl, rfl⟩

theorem turns_cons {rs' : List (Record Op C σ)} (hl : l.Single) (hs : M.step c l = some (rs, c')) :
    turns (l :: ls) (rs ++ rs') = turns [l] rs ++ turns ls rs' := by
  unfold turns
  rcases step_party hl hs with ⟨hparty, rfl⟩ | ⟨party, r, hparty, rfl⟩
  · simp [hparty]
  · simp [hparty]

/-- Every call has its party. -/
theorem map_record_turns (hl : ∀ l ∈ ls, l.Single) (hr : M.run c ls = some (rs, c')) :
    (turns ls rs).map Turn.record = rs := by
  induction ls generalizing c rs with
  | nil =>
    simp only [run, Option.some.injEq, Prod.mk.injEq] at hr
    rw [← hr.1]
    rfl
  | cons l ls ih =>
    obtain ⟨rs₁, c₁, rs₂, hs, hr', rfl⟩ := run_cons hr
    rw [List.forall_mem_cons] at hl
    have hfirst : (turns [l] rs₁).map Turn.record = rs₁ := by
      unfold turns
      rcases step_party hl.1 hs with ⟨hparty, rfl⟩ | ⟨party, r, hparty, rfl⟩
      · simp [hparty]
      · simp [hparty]
    rw [turns_cons hl.1 hs, List.map_append, hfirst, ih hl.2 hr']

/-- The calls of the thread are performed by operations that run on it. -/
theorem threaded_of_party_none (hl : ∀ l ∈ ls, l.Single)
    (hthread : ∀ op p, c.thread = some (op, p) → M.threaded op = true)
    (hr : M.run c ls = some (rs, c')) :
    ∀ b ∈ turns ls rs, b.party = none → M.threaded b.record.op = true := by
  induction ls generalizing c rs with
  | nil =>
    intro b hb
    simp [turns] at hb
  | cons l ls ih =>
    obtain ⟨rs₁, c₁, rs₂, hs, hr', rfl⟩ := run_cons hr
    rw [List.forall_mem_cons] at hl
    rw [turns_cons hl.1 hs]
    suffices h : (∀ b ∈ turns [l] rs₁, b.party = none → M.threaded b.record.op = true) ∧
        ∀ op p, c₁.thread = some (op, p) → M.threaded op = true by
      intro b hb
      exact (List.mem_append.mp hb).elim (h.1 b) (ih hl.2 h.2 hr' b)
    cases l with
    | spawn op =>
      obtain ⟨-, rfl, rfl⟩ := step_spawn hs
      exact ⟨by simp [turns], hthread⟩
    | serve i x =>
      obtain ⟨op, p, r, p', s, -, -, rfl, rfl⟩ := step_serve hs
      exact ⟨by simp [turns_serve], hthread⟩
    | start op =>
      obtain ⟨hop, rfl, rfl⟩ := step_start hs
      refine ⟨by simp [turns], fun op' p heq => ?_⟩
      obtain ⟨rfl, -⟩ := Prod.mk.inj (Option.some.inj heq)
      exact hop
    | work x =>
      obtain ⟨op, p, r, p', s, hp, ha, rfl, rfl⟩ := step_work hs
      obtain ⟨call, k, a, -, -, rfl, -⟩ := advance_eq_some ha
      have hop := hthread op p hp
      refine ⟨by simpa [turns_work] using hop, fun op' q heq => ?_⟩
      obtain ⟨rfl, -⟩ := Prod.mk.inj (Option.some.inj heq)
      exact hop
    | crash =>
      simp only [step, Option.some.injEq, Prod.mk.injEq] at hs
      obtain ⟨rfl, rfl⟩ := hs
      exact ⟨by simp [turns], fun op p heq => by cases heq⟩
    | whole op xs => exact hl.1.elim
    | cut op xs => exact hl.1.elim
    | event v =>
      obtain ⟨s, -, rfl, rfl⟩ := step_event hs
      exact ⟨by simp [turns], hthread⟩

/-- What holds after one call of a run holds before a later one, if the calls in between and the
environment keep it. -/
theorem run_since {I : σ → Prop} {h m t : List (Record Op C σ)} {a b : Record Op C σ}
    (hr : M.run c ls = some (rs, c')) (heq : rs = h ++ a :: (m ++ b :: t)) (ha : I a.after)
    (hrec : ∀ r ∈ m, I r.before → I r.after)
    (hoccur : ∀ v s s', M.occur v s = some s' → I s → I s') : I b.before := by
  -- from the first of the two calls on, and as long as the second one has not come
  let J : List (Record Op C σ) → σ → Prop :=
    fun past s => ∀ n, past = h ++ a :: n → n <+: m → I s
  have hstep : ∀ h' r t', rs = h' ++ r :: t' → J ([] ++ h') r.before →
      J ([] ++ h' ++ [r]) r.after := by
    intro h' r t' _ hJ n hn hprefix
    rw [List.nil_append] at hJ hn
    rcases List.eq_nil_or_concat n with rfl | ⟨n', r', rfl⟩
    · obtain ⟨-, hlast⟩ := List.append_inj' hn rfl
      rw [(List.cons.inj hlast).1]
      exact ha
    · rw [List.concat_eq_append, ← List.cons_append, ← List.append_assoc] at hn
      obtain ⟨hfront, hlast⟩ := List.append_inj' hn rfl
      rw [List.concat_eq_append] at hprefix
      have hmem : r ∈ m := by
        apply hprefix.subset
        rw [(List.cons.inj hlast).1]
        simp
      exact hrec r hmem (hJ n' hfront ((List.prefix_append n' [r']).trans hprefix))
  have hnone : J [] c.state := by
    intro n hn
    simp at hn
  have hkeep : ∀ past v s s', M.occur v s = some s' → J past s → J past s' :=
    fun past v s s' hv hJ n hn hprefix => hoccur v s s' hv (hJ n hn hprefix)
  have hrun := run_history [] hr hstep hkeep hnone
  have heq' : rs = (h ++ a :: m) ++ b :: t := by rw [heq, List.append_assoc, List.cons_append]
  exact hrun.1 _ b t heq' m rfl List.prefix_rfl

/-- The same, said of turns. -/
theorem turns_since {I : σ → Prop} {h m t : List (Turn Op C σ)} {a b : Turn Op C σ}
    (hl : ∀ l ∈ ls, l.Single) (hr : M.run c ls = some (rs, c'))
    (heq : turns ls rs = h ++ a :: (m ++ b :: t)) (ha : I a.record.after)
    (hrec : ∀ x ∈ m, I x.record.before → I x.record.after)
    (hoccur : ∀ v s s', M.occur v s = some s' → I s → I s') : I b.record.before := by
  have hsplit : rs = h.map Turn.record ++ a.record ::
      (m.map Turn.record ++ b.record :: t.map Turn.record) := by
    rw [← map_record_turns hl hr, heq]
    simp
  apply run_since hr hsplit ha _ hoccur
  intro r hmem
  obtain ⟨x, hx, rfl⟩ := List.mem_map.mp hmem
  exact hrec x hx

theorem record_mem (hl : ∀ l ∈ ls, l.Single) (hr : M.run c ls = some (rs, c')) {a : Turn Op C σ}
    (ha : a ∈ turns ls rs) : a.record ∈ rs := by
  rw [← map_record_turns hl hr]
  exact List.mem_map_of_mem ha

end Machine

variable {M : Machine Op C R E σ X V} {G : Gate Op C σ}

/-- This party has opened the gate in one of these turns. -/
def Gate.Opened (G : Gate Op C σ) (past : List (Turn Op C σ)) (party : Option ℕ) : Prop :=
  ∃ a ∈ past, a.party = party ∧ G.opens a.record

theorem Gate.Opened.append {past : List (Turn Op C σ)} {party : Option ℕ} (h : G.Opened past party)
    (ts : List (Turn Op C σ)) : G.Opened (past ++ ts) party := by
  obtain ⟨a, hmem, ha⟩ := h
  exact ⟨a, List.mem_append_left ts hmem, ha⟩

/-- Every request in the pool has opened the gate itself, or has it before it. -/
def Conf.Queues (M : Machine Op C R E σ X V) (G : Gate Op C σ) (past : List (Turn Op C σ))
    (c : Conf Op C R E σ) : Prop :=
  ∀ i op p, c.pool[i]? = some (op, p) → G.Opened past (some i) ∨ Gated M.exec G op p

namespace Conf.Queues

variable {past : List (Turn Op C σ)} {c c' : Conf Op C R E σ}

theorem append (h : c.Queues M G past) (ts : List (Turn Op C σ)) : c.Queues M G (past ++ ts) := by
  intro i op p hp
  rcases h i op p hp with hopened | hgated
  · exact .inl (hopened.append ts)
  · exact .inr hgated

/-- One step. A call of a request is harmless, or the request has opened the gate. -/
theorem step (hcode : ∀ op, M.threaded op = false → Gated M.exec G op (M.code op))
    {l : Label Op X V} {rs : List (Record Op C σ)} (hl : l.Single) (h : c.Queues M G past)
    (hs : M.step c l = some (rs, c')) :
    (∀ b ∈ turns [l] rs, b.party = none ∨ G.harmless b.record.op b.record.call ∨
      G.Opened past b.party) ∧ c'.Queues M G (past ++ turns [l] rs) := by
  have hrest := h.append (turns [l] rs)
  cases l with
  | spawn op =>
    obtain ⟨ht, rfl, rfl⟩ := Machine.step_spawn hs
    refine ⟨by simp [turns], fun i op' p hp => ?_⟩
    rcases Nat.lt_or_ge i c.pool.length with hi | hi
    · rw [List.getElem?_append_left hi] at hp
      exact hrest i op' p hp
    · rw [List.getElem?_append_right hi] at hp
      obtain ⟨rfl, rfl⟩ := Prod.mk.inj (List.mem_singleton.mp (List.mem_of_getElem? hp))
      exact .inr (hcode _ ht)
  | serve i x =>
    obtain ⟨op, p, r, p', s, hp, ha, rfl, rfl⟩ := Machine.step_serve hs
    obtain ⟨call, k, a, rfl, he, rfl, rfl⟩ := Machine.advance_eq_some ha
    rw [turns_serve] at hrest ⊢
    refine ⟨?_, fun j op' q hq => ?_⟩
    · rw [List.forall_mem_singleton]
      rcases h i op _ hp with hopened | hgated
      · exact .inr (.inr hopened)
      · exact .inr (.inl hgated.1)
    · by_cases hij : i = j
      · rw [← hij, List.getElem?_set_self (List.getElem?_eq_some_iff.mp hp).1] at hq
        obtain ⟨rfl, rfl⟩ := Prod.mk.inj (Option.some.inj hq)
        rw [← hij]
        rcases h i _ _ hp with hopened | hgated
        · exact .inl (hopened.append _)
        · rcases hgated.2 x _ a s he with hopens | hlater
          · exact .inl ⟨_, List.mem_append_right past (List.mem_singleton_self _), rfl, hopens⟩
          · exact .inr hlater
      · rw [List.getElem?_set_ne hij] at hq
        exact hrest j op' q hq
  | start op =>
    obtain ⟨-, rfl, rfl⟩ := Machine.step_start hs
    exact ⟨by simp [turns], hrest⟩
  | work x =>
    obtain ⟨op, p, r, p', s, -, -, rfl, rfl⟩ := Machine.step_work hs
    rw [turns_work] at hrest ⊢
    rw [List.forall_mem_singleton]
    exact ⟨.inl rfl, hrest⟩
  | crash =>
    simp only [Machine.step, Option.some.injEq, Prod.mk.injEq] at hs
    obtain ⟨rfl, rfl⟩ := hs
    exact ⟨by simp [turns], hrest⟩
  | whole op xs => exact hl.elim
  | cut op xs => exact hl.elim
  | event v =>
    obtain ⟨s, -, rfl, rfl⟩ := Machine.step_event hs
    exact ⟨by simp [turns], hrest⟩

/-- Whole runs, by induction on the labels. -/
theorem run (hcode : ∀ op, M.threaded op = false → Gated M.exec G op (M.code op))
    {ls : List (Label Op X V)} {rs : List (Record Op C σ)} (hl : ∀ l ∈ ls, l.Single)
    (h : c.Queues M G past) (hr : M.run c ls = some (rs, c')) (h' t : List (Turn Op C σ))
    (b : Turn Op C σ) (heq : turns ls rs = h' ++ b :: t) :
    b.party = none ∨ G.harmless b.record.op b.record.call ∨ G.Opened (past ++ h') b.party := by
  induction ls generalizing c rs past h' with
  | nil =>
    simp only [turns, List.filterMap_nil, List.zipWith_nil_left] at heq
    exact absurd heq.symm (by simp)
  | cons l ls ih =>
    obtain ⟨rs₁, c₁, rs₂, hs, hr', rfl⟩ := Machine.run_cons hr
    rw [List.forall_mem_cons] at hl
    obtain ⟨hfirst, hqueues⟩ := h.step hcode hl.1 hs
    rw [Machine.turns_cons hl.1 hs] at heq
    rcases Machine.append_eq_split heq with ⟨t', hmine⟩ | ⟨h'', rfl, hlater⟩
    · rcases hfirst b (by simp [hmine]) with hthread | hharmless | hopened
      · exact .inl hthread
      · exact .inr (.inl hharmless)
      · exact .inr (.inr (hopened.append h'))
    · have hrest := ih hl.2 hqueues hr' h'' hlater
      rwa [List.append_assoc] at hrest

end Conf.Queues

namespace Lookup

variable {L : Lookup C K} (free : K → σ → Prop) (harmless : K → Op → C → Prop)

/-- What has to come first for a request that takes this key: a lookup that finds it free. -/
def gate (L : Lookup C K) (free : K → σ → Prop) (harmless : K → Op → C → Prop) (k : K) :
    Gate Op C σ where
  harmless := harmless k
  opens r := L.looks r.call = some k ∧ free k r.after

variable {s : σ} {c : Conf Op C R E σ} {ls : List (Label Op X V)} {rs : List (Record Op C σ)}

/-- A key is free when it is taken, if nobody else takes it after the lookup: every request has to
look it up, and the other calls and the environment leave a key that is free as it is. -/
theorem free_of_unbroken (hl : ∀ l ∈ ls, l.Single) (hr : M.run (.initial s) ls = some (rs, c))
    (hcode : ∀ k op, M.threaded op = false →
      Gated M.exec (L.gate free harmless k) op (M.code op))
    (htaker : ∀ r ∈ rs, ∀ k, L.takes r.call = some k → M.threaded r.op = false ∧
      ¬ harmless k r.op r.call)
    (hkept : ∀ r ∈ rs, ∀ k, L.takes r.call ≠ some k → free k r.before → free k r.after)
    (hoccur : ∀ k v s s', M.occur v s = some s' → free k s → free k s')
    (hunbroken : L.Unbroken (turns ls rs)) :
    ∀ r ∈ rs, ∀ k, L.takes r.call = some k → free k r.before := by
  intro r hmem k htakes
  obtain ⟨hrequest, hharm⟩ := htaker r hmem k htakes
  rw [← Machine.map_record_turns hl hr] at hmem
  obtain ⟨b, hb, rfl⟩ := List.mem_map.mp hmem
  have hparty : b.party ≠ none := by
    intro hnone
    have hthreaded := Machine.threaded_of_party_none hl (by simp [Conf.initial]) hr b hb hnone
    rw [hrequest] at hthreaded
    cases hthreaded
  obtain ⟨h, t, heq⟩ := List.append_of_mem hb
  have hempty : (Conf.initial s : Conf Op C R E σ).Queues M (L.gate free harmless k) [] := by
    intro i op p hp
    simp [Conf.initial] at hp
  -- the request has opened the gate itself
  have hopened : (L.gate free harmless k).Opened h b.party := by
    rcases hempty.run (hcode k) hl hr h t b heq with hnone | hless | hopened
    · exact absurd hnone hparty
    · exact absurd hless hharm
    · exact hopened
  obtain ⟨a, ha, hsame, hlooks, hfree⟩ := hopened
  obtain ⟨h', m, rfl⟩ := List.append_of_mem ha
  have hsplit : turns ls rs = h' ++ a :: (m ++ b :: t) := by
    rw [heq, List.append_assoc, List.cons_append]
  apply Machine.turns_since hl hr hsplit hfree _ (hoccur k)
  intro x hx hbefore
  have hxmem : x ∈ turns ls rs := by
    rw [hsplit]
    simp [hx]
  apply hkept x.record (Machine.record_mem hl hr hxmem) k _ hbefore
  intro htaken
  have hsub : List.Sublist [a, x, b] (turns ls rs) := by
    obtain ⟨m₁, m₂, rfl⟩ := List.append_of_mem hx
    rw [hsplit]
    simp
  have hapart := hunbroken a x b hsub hsame (by rw [hlooks]; simp) (by rw [hlooks, htakes])
  exact hapart (by rw [htaken, htakes])

/-- A turn that comes before another one. -/
theorem split_of_sublist {a x b : Turn Op C σ} {ts : List (Turn Op C σ)}
    (h : List.Sublist [a, x, b] ts) : ∃ h m t, ts = h ++ x :: (m ++ b :: t) := by
  obtain ⟨r₁, r₂, rfl, -, hxb⟩ := List.cons_sublist_iff.mp h
  obtain ⟨s₁, s₂, rfl, hx, hb⟩ := List.cons_sublist_iff.mp hxb
  obtain ⟨u, v, rfl⟩ := List.append_of_mem hx
  obtain ⟨m, t, rfl⟩ := List.append_of_mem (List.singleton_sublist.mp hb)
  exact ⟨r₁ ++ u, v ++ m, t, by simp⟩

/-- Conversely, where a key that was taken is never free again, nobody has taken it between the
lookup and the call that takes it. -/
theorem unbroken_of_free (hl : ∀ l ∈ ls, l.Single) (hr : M.run (.initial s) ls = some (rs, c))
    (hnever : ∀ r ∈ rs, ∀ k, L.takes r.call = some k → ¬ free k r.after)
    (hkept : ∀ r ∈ rs, ∀ k, ¬ free k r.before → ¬ free k r.after)
    (hoccur : ∀ k v s s', M.occur v s = some s' → ¬ free k s → ¬ free k s')
    (hfree : ∀ r ∈ rs, ∀ k, L.takes r.call = some k → free k r.before) :
    L.Unbroken (turns ls rs) := by
  intro a x b hsub _ hlooks hkey htakes
  obtain ⟨k, hk⟩ := Option.ne_none_iff_exists'.mp hlooks
  have hb : L.takes b.record.call = some k := by rw [← hkey, hk]
  have hx : L.takes x.record.call = some k := by rw [htakes, hb]
  obtain ⟨h, m, t, hsplit⟩ := split_of_sublist hsub
  have hmem : ∀ y ∈ x :: (m ++ b :: t), y.record ∈ rs := by
    intro y hy
    apply Machine.record_mem hl hr
    rw [hsplit]
    exact List.mem_append_right h hy
  have htaken : ¬ free k x.record.after := hnever x.record (hmem x (by simp)) k hx
  have hstill : ¬ free k b.record.before := by
    apply Machine.turns_since (I := fun s => ¬ free k s) hl hr hsplit htaken _ (hoccur k)
    intro y hy
    exact hkept y.record (hmem y (by simp [hy])) k
  exact hstill (hfree b.record (hmem b (by simp)) k hb)

end Lookup

end Interaction
