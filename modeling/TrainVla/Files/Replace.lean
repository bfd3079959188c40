import TrainVla.Files.Disk
import TrainVla.Interaction.Soundness
import TrainVla.Interaction.Order
import Mathlib.Data.List.Forall2

/-! Documents that are put in place by renaming. Whoever reads while they are being written gets
one of them whole, and never goes back to an older one. -/
namespace Files

open Interaction

/-- Who uses the directory: one who writes documents, one after the other, and many who read. -/
inductive Party (D : Type)
  | write (document : D)
  | read (times : ℕ)

def Party.threaded {D : Type} : Party D → Bool
  | write _ => true
  | read _ => false

def Party.document? {D : Type} : Party D → Option D
  | write document => some document
  | read _ => none

/-- The documents that are written by the labels, in order. -/
def documents {D : Type} (ls : List (Label (Party D) ℕ Empty)) : List D :=
  (ls.flatMap (Label.turn Party.threaded)).filterMap Party.document?

variable {N B D : Type}

def directory [DecidableEq N] (tmp target : N) (encode : D → List B) :
    Machine (Party D) (FileCall N B) FileCall.Resp FileError (Disk N B) ℕ Empty where
  exec := Disk.exec
  occur v := v.elim
  code
    | .write document => replaceFile tmp target (encode document)
    | .read times => follow target times []
  threaded := Party.threaded

/-- What a reader has read, newest first, when these were the documents in place: each content was
the latest at some time since the reading of it began, and none is older than the one before. -/
def Followed : List (ℕ × List B) → List (ℕ × Option (List B)) → Prop
  | _, [] => True
  | published, (since, content) :: older =>
    ∃ seen, seen <:+ published ∧ since ≤ seen.length ∧ content = seen.head?.map Prod.snd ∧
      Followed seen older

theorem Followed.mono {published published' : List (ℕ × List B)} (h : published <:+ published')
    {contents : List (ℕ × Option (List B))} (hc : Followed published contents) :
    Followed published' contents := by
  cases contents with
  | nil => trivial
  | cons content older =>
    obtain ⟨seen, hseen, hcontent⟩ := hc
    exact ⟨seen, hseen.trans h, hcontent⟩

/-- Since the reading began `c.1` documents were in place, and `n` when this one was read. -/
def ReadAt (placed : List (List B)) (c : ℕ × Option (List B)) (n : ℕ) : Prop :=
  c.1 ≤ n ∧ n ≤ placed.length ∧ c.2 = (placed.take n).getLast?

theorem Followed.positions {published : List (ℕ × List B)}
    {contents : List (ℕ × Option (List B))} (h : Followed published contents) :
    ∃ ns : List ℕ, List.Forall₂ (ReadAt (published.map Prod.snd).reverse) contents ns ∧
      ns.Pairwise (· ≥ ·) ∧ ∀ n ∈ ns, n ≤ published.length := by
  induction contents generalizing published with
  | nil => exact ⟨[], .nil, .nil, fun n hn => absurd hn List.not_mem_nil⟩
  | cons c older ih =>
    obtain ⟨since, content⟩ := c
    obtain ⟨seen, hseen, hsince, hcontent, holder⟩ := h
    obtain ⟨ns, hns, hsorted, hle⟩ := ih holder
    have hlength := hseen.length_le
    have hfront : (seen.map Prod.snd).reverse <+: (published.map Prod.snd).reverse :=
      List.reverse_prefix.mpr (hseen.map Prod.snd)
    have htake : (seen.map Prod.snd).reverse =
        (published.map Prod.snd).reverse.take seen.length := by
      have heq := List.prefix_iff_eq_take.mp hfront
      rw [List.length_reverse, List.length_map] at heq
      exact heq
    refine ⟨seen.length :: ns, .cons ⟨hsince, ?_, ?_⟩ ?_, List.pairwise_cons.mpr ⟨hle, hsorted⟩, ?_⟩
    · rw [List.length_reverse, List.length_map]
      exact hlength
    · rw [← htake, List.getLast?_reverse, List.head?_map]
      exact hcontent
    · refine List.Forall₂.imp (fun c n hn => ?_) hns
      obtain ⟨hsince, hn, hcontent⟩ := hn
      rw [htake] at hn hcontent
      rw [List.length_take] at hn
      refine ⟨hsince, by omega, ?_⟩
      rw [hcontent, List.take_take, Nat.min_eq_left (by omega)]
    · intro n hn
      rcases List.mem_cons.mp hn with rfl | hn
      · exact hlength
      · exact Nat.le_trans (hle n hn) hlength

/-- What is in place is never written again: the name it was written under leads elsewhere. -/
structure Intact (tmp target : N) (d : Disk N B) : Prop where
  current : d.entry target = d.published.head?.map Prod.fst
  whole : ∀ document ∈ d.published, d.content document.1 = document.2
  apart : ∀ document ∈ d.published, d.entry tmp ≠ some document.1
  old : ∀ document ∈ d.published, document.1 < d.fresh
  known : ∀ file, d.entry tmp = some file → file < d.fresh

section

variable {tmp target : N} {d : Disk N B}

theorem intact_empty : Intact tmp target (Disk.empty : Disk N B) where
  current := rfl
  whole document h := absurd h List.not_mem_nil
  apart document h := absurd h List.not_mem_nil
  old document h := absurd h List.not_mem_nil
  known file h := by cases h

namespace Intact

theorem append {file : ℕ} (h : Intact tmp target d) (hfile : d.entry tmp = some file)
    (data : List B) : Intact tmp target (d.append file data) where
  current := h.current
  whole document hmem := by
    have hother : document.1 ≠ file := by
      rintro rfl
      exact h.apart document hmem hfile
    exact (Function.update_of_ne hother _ _).trans (h.whole document hmem)
  apart := h.apart
  old := h.old
  known := h.known

variable [DecidableEq N]

/-- Emptying or creating the file that is written next. -/
theorem create (h : Intact tmp target d) (hne : tmp ≠ target) :
    Intact tmp target (d.create tmp).2 ∧ (d.create tmp).2.entry tmp = some (d.create tmp).1 ∧
      (d.create tmp).2.content (d.create tmp).1 = [] ∧
      (d.create tmp).2.published = d.published := by
  cases hentry : d.entry tmp with
  | some file =>
    rw [Disk.create_of_some hentry]
    have hother : ∀ document ∈ d.published, document.1 ≠ file := by
      rintro document hmem rfl
      exact h.apart document hmem hentry
    refine ⟨⟨h.current, fun document hmem => ?_, h.apart, h.old, h.known⟩, hentry, ?_, rfl⟩
    · exact (Function.update_of_ne (hother document hmem) _ _).trans (h.whole document hmem)
    · exact Function.update_self ..
  | none =>
    rw [Disk.create_of_none hentry]
    have hother : ∀ document ∈ d.published, document.1 ≠ d.fresh := by
      intro document hmem
      have hold := h.old document hmem
      omega
    have hnew : Function.update d.entry tmp (some d.fresh) tmp = some d.fresh :=
      Function.update_self ..
    refine ⟨⟨?_, ?_, ?_, ?_, ?_⟩, hnew, ?_, rfl⟩
    · exact (Function.update_of_ne (Ne.symm hne) (some d.fresh) d.entry).trans h.current
    · intro document hmem
      exact (Function.update_of_ne (hother document hmem) _ _).trans (h.whole document hmem)
    · intro document hmem hfile
      have hfresh := hnew.symm.trans hfile
      exact hother document hmem (Option.some.inj hfresh).symm
    · intro document hmem
      have hold := h.old document hmem
      show document.1 < d.fresh + 1
      omega
    · intro file hfile
      have hfresh := Option.some.inj (hnew.symm.trans hfile)
      show file < d.fresh + 1
      omega
    · exact Function.update_self ..

theorem publish {file : ℕ} (h : Intact tmp target d) (hne : tmp ≠ target)
    (hfile : d.entry tmp = some file) : Intact tmp target (d.publish tmp target file) where
  current := by
    show (if target = target then some file else _) = some file
    rw [if_pos rfl]
  whole := by
    intro document hmem
    rcases List.mem_cons.mp hmem with rfl | hmem
    · rfl
    · exact h.whole document hmem
  apart := by
    intro document hmem
    show (if tmp = target then some file else if tmp = tmp then none else d.entry tmp) ≠ _
    rw [if_neg hne, if_pos rfl]
    simp
  old := by
    intro document hmem
    rcases List.mem_cons.mp hmem with rfl | hmem
    · exact h.known file hfile
    · exact h.old document hmem
  known := by
    intro file' hfile'
    have hnone : (d.publish tmp target file).entry tmp = none := by
      show (if tmp = target then some file else if tmp = tmp then none else d.entry tmp) = none
      rw [if_neg hne, if_pos rfl]
    rw [hnone] at hfile'
    cases hfile'

end Intact

end

/-- The writer has the directory to itself but for readers, who rely on nothing being taken away. -/
def outline (tmp target : N) (encode : D → List B) (written : D → Prop) :
    Outline (Party D) (FileCall N B) (Disk N B) where
  inv d := Intact tmp target d ∧
    ∀ document ∈ d.published, ∃ w, written w ∧ document.2 = encode w
  rely
    | .write _, d, d' => d' = d
    | .read _, d, d' => d.published <:+ d'.published
  pre
    | .write _, _, .create name => name = tmp
    | .write _, d, .write file _ => d.entry tmp = some file
    | .write w, d, .replace source name => source = tmp ∧ name = target ∧
        ∃ file, d.entry tmp = some file ∧ d.content file = encode w
    | .write _, _, _ => False
    | .read _, d, .report contents => Followed d.published contents
    | .read _, _, .create _ | .read _, _, .write .. | .read _, _, .replace .. => False
    | .read _, _, _ => True
  cond _ _ _ := True

/-- Only these documents are written. -/
def Writes (written : D → Prop) : Label (Party D) ℕ Empty → Prop
  | .spawn (.write w) | .start (.write w) | .cut (.write w) _ | .whole (.write w) _ => written w
  | _ => True

section

variable {tmp target : N} {encode : D → List B} {written : D → Prop}

theorem written_of_active {w : D} (h : Active (Writes written) (.write w)) : written w := by
  rcases h with h | h | ⟨xs, h | h⟩ <;> exact h

theorem outline_preorders : (outline tmp target encode written).Preorders where
  refl
    | .write _, _ => rfl
    | .read _, _ => List.suffix_refl _
  trans
    | .write _, _, _, _ => fun h h' => h'.trans h
    | .read _, _, _, _ => List.IsSuffix.trans

theorem atMost_writeAll (file fuel : ℕ) (data : List B) :
    AtMost FileCall.replaces (writeAll file fuel data : FileProg N B Unit) 0 := by
  induction fuel generalizing data with
  | zero => trivial
  | succ fuel ih =>
    cases data with
    | nil => trivial
    | cons b data => exact .of_not_sel rfl fun amount => ih _

/-- A document is put in place at most once. -/
theorem atMost_replaceFile (data : List B) :
    AtMost FileCall.replaces (replaceFile tmp target data) 1 := by
  refine .of_not_sel rfl fun file => ?_
  refine .bind (atMost_writeAll file _ data) fun _ => ?_
  exact .of_sel rfl fun _ => trivial

theorem atMost_readRest (file fuel : ℕ) (got : List B) :
    AtMost FileCall.replaces (readRest file fuel got : FileProg N B (List B)) 0 := by
  induction fuel generalizing got with
  | zero => trivial
  | succ fuel ih =>
    refine .of_not_sel rfl fun chunk => ?_
    split
    · trivial
    · exact ih _

theorem atMost_follow (n : ℕ) (contents : List (ℕ × Option (List B))) :
    AtMost FileCall.replaces (follow target n contents) 0 := by
  induction n generalizing contents with
  | zero => trivial
  | succ n ih =>
    refine .of_not_sel rfl fun since => ?_
    have hread : AtMost FileCall.replaces (readFile target : FileProg N B _) 0 := by
      refine .of_not_sel rfl fun found => ?_
      split
      · refine .of_not_sel rfl fun opened => ?_
        rcases opened with _ | ⟨file, size⟩
        · trivial
        · exact .bind (atMost_readRest file _ _) fun _ => trivial
      · trivial
    exact .bind hread fun content => .of_not_sel rfl fun _ => ih _

variable [DecidableEq N] {d : Disk N B} {w : D} {times n : ℕ}

/-- The rest of a document is written to the file that has the beginning of it. -/
theorem safe_writeAll {post : Except FileError Unit → Disk N B → Prop} {file : ℕ} {data : List B}
    {fuel : ℕ} (hfile : d.entry tmp = some file) (hdata : d.content file ++ data = encode w)
    (hfuel : data.length ≤ fuel)
    (hpost : ∀ d', d'.entry tmp = some file → d'.content file = encode w → post (.ok ()) d') :
    Safe Disk.exec (outline tmp target encode written) (.write w) post
      (writeAll file fuel data) d := by
  have hdone : data = [] → ∀ d', d' = d → post (.ok ()) d' := by
    rintro rfl d' rfl
    rw [List.append_nil] at hdata
    exact hpost d' hfile hdata
  induction fuel generalizing d data with
  | zero =>
    have hempty := List.eq_nil_of_length_eq_zero (Nat.le_zero.mp hfuel)
    exact fun d' hd _ => hdone hempty d' hd
  | succ fuel ih =>
    cases data with
    | nil => exact fun d' hd _ => hdone rfl d' hd
    | cons b data =>
      apply Safe.perform
      rintro d' rfl -
      refine ⟨hfile, fun _ x amount d'' he => ?_⟩
      obtain ⟨hamount, rfl, rfl⟩ := Disk.exec_write he
      have hcontent : (d'.append file ((b :: data).take amount)).content file =
          d'.content file ++ (b :: data).take amount := Function.update_self ..
      have hrest : (d'.append file ((b :: data).take amount)).content file ++
          (b :: data).drop amount = encode w := by
        rw [hcontent, List.append_assoc, List.take_append_drop]
        exact hdata
      have hless : ((b :: data).drop amount).length ≤ fuel := by
        rw [List.length_drop]
        omega
      refine ih hfile hrest hless ?_
      intro hnil d₁ hd₁
      rw [hnil, List.append_nil] at hrest
      rw [hd₁]
      exact hpost _ hfile hrest

theorem safe_replaceFile (hne : tmp ≠ target) :
    Safe Disk.exec (outline tmp target encode written) (.write w) (fun r _ => r = .ok ())
      (replaceFile tmp target (encode w)) d := by
  apply Safe.perform
  rintro d' rfl ⟨hintact, -⟩
  refine ⟨rfl, fun _ x file d₁ he => ?_⟩
  obtain ⟨rfl, rfl⟩ := Disk.exec_create he
  obtain ⟨-, hfile, hcontent, -⟩ := hintact.create hne
  apply Safe.bind outline_preorders
  refine safe_writeAll hfile (by rw [hcontent]; rfl) (Nat.le_refl _) ?_
  intro d₂ hfile₂ hcontent₂
  rintro d₃ rfl -
  refine ⟨⟨rfl, rfl, _, hfile₂, hcontent₂⟩, fun _ x r d₄ he => ?_⟩
  exact fun _ _ _ => rfl

/-- A document in place is read to its end, whatever is put in place meanwhile. -/
theorem safe_readRest {post : Except FileError (List B) → Disk N B → Prop} {file fuel : ℕ}
    {whole got : List B} (hmem : (file, whole) ∈ d.published) (hgot : got <+: whole)
    (hfuel : whole.length - got.length < fuel)
    (hpost : ∀ d', d.published <:+ d'.published → post (.ok whole) d') :
    Safe Disk.exec (outline tmp target encode written) (.read times) post
      (readRest file fuel got) d := by
  induction fuel generalizing d got with
  | zero => omega
  | succ fuel ih =>
    apply Safe.perform
    rintro d' hd ⟨hintact, -⟩
    refine ⟨trivial, fun _ amount chunk d'' he => ?_⟩
    obtain ⟨hamount, rfl, rfl⟩ := Disk.exec_read he
    have hmem' : (file, whole) ∈ d''.published := hd.subset hmem
    have hwhole : d''.content file = whole := hintact.whole _ hmem'
    obtain ⟨rest, rfl⟩ := hgot
    have hchunk : ((d''.content file).drop got.length).take amount = rest.take amount := by
      rw [hwhole, List.drop_left]
    rw [hchunk]
    have hpost' : ∀ d₁, d''.published <:+ d₁.published → post (.ok (got ++ rest)) d₁ :=
      fun d₁ hd₁ => hpost d₁ (hd.trans hd₁)
    cases rest with
    | nil =>
      rw [List.append_nil] at hpost'
      simp only [List.take_nil, List.isEmpty_nil, if_true]
      exact fun d₁ hd₁ _ => hpost' d₁ hd₁
    | cons b rest =>
      have hmore : ((b :: rest).take amount).isEmpty = false := by
        cases amount with
        | zero => cases hamount
        | succ amount => rfl
      rw [hmore]
      refine ih hmem' ?_ ?_ hpost'
      · exact List.prefix_append_right_inj got |>.mpr (List.take_prefix ..)
      · simp only [List.length_append, List.length_take, List.length_cons] at hfuel ⊢
        omega

/-- One reading after the other. -/
theorem safe_readFile {post : Except FileError (Option (List B)) → Disk N B → Prop}
    (hpost : ∀ seen d', d.published <:+ seen → seen <:+ d'.published →
      post (.ok (seen.head?.map Prod.snd)) d') :
    Safe Disk.exec (outline tmp target encode written) (.read times) post (readFile target) d := by
  apply Safe.perform
  rintro d₁ hd₁ ⟨hintact₁, -⟩
  refine ⟨trivial, fun _ x r d₁' he => ?_⟩
  obtain ⟨rfl, rfl⟩ := Prod.mk.inj (Option.some.inj he)
  rw [hintact₁.current]
  cases hlatest : d₁.published with
  | nil =>
    intro d₂ hd₂ _
    have h := hpost d₁.published d₂ hd₁ hd₂
    rw [hlatest] at h
    exact h
  | cons document older =>
    apply Safe.perform
    rintro d₂ hd₂ ⟨hintact₂, -⟩
    have hd₂ : d₁.published <:+ d₂.published := hd₂
    refine ⟨trivial, fun _ x r d₂' he => ?_⟩
    obtain ⟨rfl, rfl⟩ := Prod.mk.inj (Option.some.inj he)
    rw [hintact₂.current]
    cases hlatest₂ : d₂.published with
    | nil =>
      rw [hlatest, hlatest₂] at hd₂
      cases List.suffix_nil.mp hd₂
    | cons latest before =>
      have hmem : latest ∈ d₂.published := by
        rw [hlatest₂]
        exact List.mem_cons_self
      apply Safe.bind outline_preorders
      have hpair : (latest.1, latest.2) ∈ d₂.published := hmem
      refine safe_readRest hpair List.nil_prefix ?_ ?_
      · show latest.2.length - 0 < (d₂.content latest.1).length + 1
        rw [hintact₂.whole latest hmem]
        omega
      · intro d₃ hd₃ d₄ hd₄ _
        have h := hpost d₂.published d₄ (hd₁.trans hd₂) (hd₃.trans hd₄)
        rw [hlatest₂] at h
        exact h

theorem safe_follow {contents : List (ℕ × Option (List B))} (hc : Followed d.published contents) :
    Safe Disk.exec (outline tmp target encode written) (.read times) (fun r _ => r = .ok ())
      (follow target n contents) d := by
  induction n generalizing d contents with
  | zero => exact fun _ _ _ => rfl
  | succ n ih =>
    apply Safe.perform
    rintro d₁ hd₁ -
    refine ⟨trivial, fun _ x since d₁' he => ?_⟩
    obtain ⟨rfl, rfl⟩ := Prod.mk.inj (Option.some.inj he)
    apply Safe.bind outline_preorders
    refine safe_readFile fun seen d₂ hseen hd₂ => ?_
    have hnow : Followed d₂.published
        ((d₁.published.length, seen.head?.map Prod.snd) :: contents) :=
      ⟨seen, hd₂, hseen.length_le, rfl, hc.mono (hd₁.trans hseen)⟩
    apply Safe.perform
    intro d₃ hd₃ _
    refine ⟨hnow.mono hd₃, fun _ x r d₃' he => ?_⟩
    obtain ⟨-, rfl⟩ := Prod.mk.inj (Option.some.inj he)
    exact ih (hnow.mono hd₃)

/-- Calls under their preconditions. A reader changes nothing. -/
theorem outline_steps (hne : tmp ≠ target) :
    (outline tmp target encode written).Steps (directory tmp target encode) (Writes written) where
  preorders := outline_preorders
  exec := by
    rintro op x d c r d' hop ⟨hintact, hdocuments⟩ hpre - he
    replace he : Disk.exec x d c = some (r, d') := he
    -- nothing is put in place
    have hsame : Intact tmp target d' → d'.published = d.published →
        (outline tmp target encode written).inv d' ∧
          ∀ times, (outline tmp target encode written).rely (.read times) d d' := by
      intro hintact' hpublished
      refine ⟨⟨hintact', ?_⟩, fun times => ?_⟩
      · rw [hpublished]
        exact hdocuments
      · show d.published <:+ d'.published
        exact hpublished ▸ List.suffix_refl d.published
    cases op with
    | write w =>
      suffices h : (outline tmp target encode written).inv d' ∧
          ∀ times, (outline tmp target encode written).rely (.read times) d d' by
        refine ⟨h.1, fun op' hoverlap => ?_⟩
        cases op' with
        | read times => exact h.2 times
        | write w' => cases hoverlap.2 rfl
      cases c with
      | create name =>
        obtain rfl : name = tmp := hpre
        obtain ⟨-, rfl⟩ := Disk.exec_create he
        obtain ⟨hintact', -, -, hpublished⟩ := hintact.create hne
        exact hsame hintact' hpublished
      | write file data =>
        obtain ⟨-, -, rfl⟩ := Disk.exec_write he
        exact hsame (hintact.append hpre _) rfl
      | replace source name =>
        obtain ⟨rfl, rfl, file, hfile, hcontent⟩ := hpre
        obtain ⟨file', hfile', rfl⟩ := Disk.exec_replace he
        obtain rfl := Option.some.inj (hfile.symm.trans hfile')
        refine ⟨⟨hintact.publish hne hfile, ?_⟩, fun times => List.suffix_cons ..⟩
        intro document hmem
        rcases List.mem_cons.mp hmem with rfl | hmem
        · exact ⟨w, written_of_active hop, hcontent⟩
        · exact hdocuments document hmem
      | _ => exact absurd hpre (by simp [outline])
    | read times =>
      obtain rfl : d' = d := Disk.exec_unchanged (by cases c <;> first | rfl | cases hpre) he
      refine ⟨⟨hintact, hdocuments⟩, fun op' _ => ?_⟩
      exact outline_preorders.refl op' d'
  occur v := v.elim

theorem outline_sound (hne : tmp ≠ target) :
    (outline tmp target encode written).Sound (directory tmp target encode) (Writes written)
      fun _ r _ => r = .ok () where
  toSteps := outline_steps hne
  code := by
    intro op hop d hd
    cases op with
    | write w => exact safe_replaceFile hne
    | read times => exact safe_follow trivial

/-- What the calls of a run have put in place. -/
def Placed (encode : D → List B) (rs : List (Record (Party D) (FileCall N B) (Disk N B)))
    (d : Disk N B) : Prop :=
  d.published.map Prod.snd =
    (((callers FileCall.replaces rs).filterMap Party.document?).map encode).reverse

theorem Placed.step {past : List (Record (Party D) (FileCall N B) (Disk N B))}
    {r : Record (Party D) (FileCall N B) (Disk N B)} (h : Placed encode past r.before)
    (hr : r.Known (directory tmp target encode) (outline tmp target encode written)) :
    Placed encode (past ++ [r]) r.after ∧ r.before.published <:+ r.after.published := by
  obtain ⟨op, d, c, d'⟩ := r
  obtain ⟨⟨hintact, -⟩, hpre, x, a, he⟩ := hr
  replace he : Disk.exec x d c = some (a, d') := he
  have hother : c.replaces = false → d'.published = d.published →
      Placed encode (past ++ [⟨op, d, c, d'⟩]) d' ∧ d.published <:+ d'.published := by
    intro hc hpublished
    refine ⟨?_, ?_⟩
    · unfold Placed at h ⊢
      rw [hpublished, h, callers_append]
      simp [callers, hc]
    · exact hpublished ▸ List.suffix_refl d.published
  cases c with
  | create name =>
    obtain ⟨-, rfl⟩ := Disk.exec_create he
    exact hother rfl (d.published_create name)
  | write file data =>
    obtain ⟨-, -, rfl⟩ := Disk.exec_write he
    exact hother rfl rfl
  | replace source name =>
    cases op with
    | read times => cases hpre
    | write w =>
      obtain ⟨rfl, rfl, file, hfile, hcontent⟩ := hpre
      obtain ⟨file', hfile', rfl⟩ := Disk.exec_replace he
      obtain rfl := Option.some.inj (hfile.symm.trans hfile')
      refine ⟨?_, List.suffix_cons ..⟩
      unfold Placed at h ⊢
      rw [callers_append, List.filterMap_append, List.map_append, List.reverse_append, ← h]
      have hpublished : (d.publish source name file).published =
          (file, d.content file) :: d.published := rfl
      rw [hpublished, List.map_cons, hcontent]
      rfl
  | _ =>
    obtain rfl := Disk.exec_unchanged rfl he
    exact hother rfl rfl

section

variable {ls : List (Label (Party D) ℕ Empty)}
  {rs : List (Record (Party D) (FileCall N B) (Disk N B))}
  {c : Conf (Party D) (FileCall N B) FileCall.Resp FileError (Disk N B)}

theorem known_run (hne : tmp ≠ target)
    (hr : (directory tmp target encode).run (.initial .empty) ls = some (rs, c)) :
    (∀ r ∈ rs, r.Known (directory tmp target encode) (outline tmp target encode fun _ => True)) ∧
      ∀ op p r, (op, p) ∈ c.pool ∨ c.thread = some (op, p) → p.outcome? = some r → r = .ok () := by
  have hsound : (outline tmp target encode fun _ => True).Sound (directory tmp target encode)
      (Writes fun _ => True) fun _ r _ => r = .ok () := outline_sound hne
  have hpermit : ∀ l ∈ ls, Writes (fun _ : D => True) l := by
    intro l _
    unfold Writes
    split <;> trivial
  have hgood : (Conf.initial Disk.empty : Conf (Party D) (FileCall N B) FileCall.Resp FileError
      (Disk N B)).Good (directory tmp target encode) (outline tmp target encode fun _ => True)
      (Writes fun _ => True) fun _ r _ => r = .ok () :=
    .initial ⟨intact_empty, fun document h => absurd h List.not_mem_nil⟩
  obtain ⟨hknown, hgood'⟩ := hsound.run hgood hpermit hr fun _ _ _ => trivial
  have hconcluded := hsound.concluded_run (Q := fun _ r => r = .ok ()) (fun _ _ _ h => h) hgood
    hpermit hr (fun _ _ _ => trivial) fun op p r h => by cases h
  refine ⟨hknown, fun op p r hp hout => ?_⟩
  rcases hp with hp | hp
  · exact hsound.outcome_of_safe hgood'.inv (hgood'.pool op p hp).2.2 hout
  · exact hconcluded op p r hp hout

theorem placed_run (hne : tmp ≠ target)
    (hr : (directory tmp target encode).run (.initial .empty) ls = some (rs, c)) :
    Placed encode rs c.state ∧ ∀ r ∈ rs, r.before.published <:+ c.state.published := by
  have hknown := (known_run hne hr).1
  have hrun := Machine.run_history
    (I := fun h d => Placed encode h d ∧ ∀ r ∈ h, r.before.published <:+ d.published) [] hr ?_
    (fun _ v => v.elim) ⟨rfl, fun r h => absurd h List.not_mem_nil⟩
  · exact hrun.2
  · rintro past r rest heq ⟨hplaced, hbefore⟩
    have hmem : r ∈ rs := by
      rw [heq]
      exact List.mem_append_right _ List.mem_cons_self
    obtain ⟨hplaced', hgrown⟩ := hplaced.step (hknown r hmem)
    refine ⟨hplaced', fun r' hmem' => ?_⟩
    rcases List.mem_append.mp hmem' with hmem' | hmem'
    · exact (hbefore r' hmem').trans hgrown
    · rw [List.mem_singleton.mp hmem']
      exact hgrown

/-- Readers see the documents that are put in place, each of them whole and none after a later
one, and nothing fails. -/
theorem run_directory (hne : tmp ≠ target)
    (hr : (directory tmp target encode).run (.initial .empty) ls = some (rs, c)) :
    (∃ written : List D, written.Sublist (documents ls) ∧ c.state.placed = written.map encode) ∧
      (∀ r ∈ rs, r.before.placed <+: c.state.placed ∧
        ∀ contents, r.call = .report contents →
          ∃ ns, List.Forall₂ (ReadAt r.before.placed) contents ns ∧ ns.Pairwise (· ≥ ·)) ∧
      ∀ op p r, (op, p) ∈ c.pool ∨ c.thread = some (op, p) → p.outcome? = some r → r = .ok () := by
  obtain ⟨hknown, hended⟩ := known_run hne hr
  obtain ⟨hplaced, hbefore⟩ := placed_run hne hr
  refine ⟨?_, fun r hmem => ⟨?_, fun contents hcall => ?_⟩, hended⟩
  · refine ⟨(callers FileCall.replaces rs).filterMap Party.document?, ?_, ?_⟩
    · have hcallers : (callers FileCall.replaces rs).Sublist
          ([] ++ ls.flatMap (Label.turn Party.threaded)) := by
        refine callers_run (M := directory tmp target encode) ?_ ?_ ?_ ?_ hr
        · intro op hop
          cases op with
          | write w => exact atMost_replaceFile _
          | read times => cases hop
        · intro op hop
          cases op with
          | write w => cases hop
          | read times => exact atMost_follow _ _
        · exact fun entry h => absurd h List.not_mem_nil
        · intro op p h
          cases h
      exact hcallers.filterMap _
    · unfold Disk.placed
      rw [hplaced, List.reverse_reverse]
  · exact List.reverse_prefix.mpr ((hbefore r hmem).map Prod.snd)
  · have hfollowed : Followed r.before.published contents := by
      have hpre := (hknown r hmem).pre
      rw [hcall] at hpre
      cases hop : r.op with
      | write w =>
        rw [hop] at hpre
        exact absurd hpre id
      | read times =>
        rw [hop] at hpre
        exact hpre
    obtain ⟨ns, hns, hsorted, -⟩ := hfollowed.positions
    exact ⟨ns, hns, hsorted⟩

end

end

end Files
