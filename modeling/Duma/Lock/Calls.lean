import Duma.Foundation.Monitor
import Duma.Model.Interleaving
import Mathlib.Tactic.Common

/-! # Calls are in order

A monitor follows a call step by step: how far it has come, whether it has the lock, and which
pointers lead into the current list. It refuses no call of an entry point.
-/

namespace Duma.Interleaving

open Computability Monitor

inductive Stage
  | out
  | arg
  | args
  | inside
  | sized
  | growing
  | created
  | listSet
  | sizeSet
  | moved
  | closing
  | closed
  | ended
  deriving DecidableEq

def Stage.opened : Stage → Bool
  | .inside | .sized | .growing | .created | .listSet | .sizeSet | .moved => true
  | _ => false

def Stage.steady : Stage → Bool
  | .inside | .growing | .created | .moved => true
  | _ => false

structure Point where
  locked : Bool
  stage : Stage
  /-- the pointers into the current list -/
  known : Ptr → Bool

def Point.start : Point := ⟨false, .out, fun _ => false⟩

/-- Where a step takes a thread that is at this point, if the step is in order there. -/
def Point.next (p : Point) : Step → Option Point
  | .get => if p.locked = false ∧ p.stage = .out then some { p with locked := true } else none
  | .release =>
    if p.locked = true ∧ p.stage = .closed then some ⟨false, .ended, fun _ => false⟩ else none
  | .testList => if p.stage = .ended then none else some p
  | .argList =>
    if p.stage = .out then some { p with stage := .arg }
    else if p.stage = .inside ∨ p.stage = .growing then some { p with stage := .closing } else none
  | .argSize =>
    if p.stage = .arg then some { p with stage := .args }
    else if p.stage = .closing then some p else none
  | .protect .readWrite => if p.stage = .args then some { p with stage := .inside } else none
  | .protect .noAccess =>
    if p.stage = .closing then
      some (if p.locked = true then { p with stage := .closed } else ⟨false, .ended, fun _ => false⟩)
    else none
  | .protect .unmapped => none
  | .fetchSlot v =>
    if p.locked = false ∧ p.stage = .out ∨ p.stage.steady = true then
      some { p with known := Function.update p.known v true }
    else none
  | .fetchCount _ => if p.stage = .ended then none else some p
  | .access v _ => if p.stage.steady = true ∧ p.known v = true then some p else none
  | .newSize =>
    if p.locked = true ∧ p.stage = .inside then some { p with stage := .sized } else none
  | .oldAllocation => if p.stage = .sized then some { p with stage := .growing } else none
  | .newAllocation => if p.stage = .growing then some { p with stage := .created } else none
  | .setList =>
    if p.stage = .created then some { p with stage := .listSet, known := fun _ => false } else none
  | .setSize => if p.stage = .listSet then some { p with stage := .sizeSet } else none
  | .addSlots => if p.stage = .sizeSet then some { p with stage := .moved } else none
  | .deleteOld _ => if p.stage = .moved then some { p with stage := .inside } else none

def At (locked : Bool) (q : Stage) (vs : List Ptr) : Set Point :=
  {p | p.locked = locked ∧ p.stage = q ∧ ∀ v ∈ vs, p.known v = true}

abbrev Goes (P : Set Point) (l : Language Step) (Q : Set Point) : Prop := Takes Point.next P l Q

variable {locked : Bool} {q : Stage} {vs ws : List Ptr} {v : Ptr}

theorem At.mono (h : ws ⊆ vs) : At locked q vs ⊆ At locked q ws := by
  rintro p ⟨hl, hq, hv⟩
  exact ⟨hl, hq, fun v hv' => hv v (h hv')⟩

theorem word_cons {P Q R : Set Point} {a : Step} {w : List Step}
    (ha : ∀ p ∈ P, ∃ q ∈ Q, p.next a = some q) (hw : Goes Q (word w) R) :
    Goes P (word (a :: w)) R := by
  rintro p hp _ rfl
  obtain ⟨q, hq, hn⟩ := ha p hp
  obtain ⟨r, hr, hrun⟩ := hw q hq w rfl
  exact ⟨r, hr, by rw [run_cons, hn, Option.bind_some, hrun]⟩

theorem word_nil {P : Set Point} : Goes P (word []) P := by
  rintro p hp _ rfl
  exact ⟨p, hp, rfl⟩

theorem accesses_goes (hq : q.steady = true) (hv : v ∈ vs) :
    Goes (At locked q vs) (accesses v) (At locked q vs) := by
  intro p hp w hw
  refine ⟨p, hp, ?_⟩
  induction w with
  | nil => rfl
  | cons a w ih =>
    obtain ⟨i, rfl⟩ := hw a List.mem_cons_self
    have hn : p.next (.access v i) = some p := if_pos ⟨hp.2.1 ▸ hq, hp.2.2 v hv⟩
    rw [run_cons, hn, Option.bind_some, ih fun b hb => hw b (List.mem_cons_of_mem _ hb)]

theorem fetch_goes (hq : locked = false ∧ q = .out ∨ q.steady = true) :
    Goes (At locked q vs) (word [.fetchSlot v, .fetchCount v]) (At locked q (v :: vs)) := by
  have hover : q ≠ .ended := by
    rintro rfl
    simp [Stage.steady] at hq
  refine word_cons (Q := At locked q (v :: vs)) ?_ (word_cons ?_ word_nil)
  · rintro p ⟨rfl, rfl, hv⟩
    refine ⟨{ p with known := Function.update p.known v true }, ⟨rfl, rfl, ?_⟩, if_pos hq⟩
    intro u hu
    change Function.update p.known v true u = true
    by_cases huv : u = v
    · rw [huv, Function.update_self]
    · rw [Function.update_of_ne huv]
      exact hv u ((List.mem_cons.mp hu).resolve_left huv)
  · rintro p hp
    exact ⟨p, hp, if_neg (hp.2.1 ▸ hover)⟩

theorem loop_goes (hq : q.steady = true) :
    Goes (At locked q vs) (loop v) (At locked q (v :: vs)) :=
  (fetch_goes (Or.inr hq)).mul (accesses_goes hq List.mem_cons_self)

theorem checkAllSlacks_goes (hq : q.steady = true) :
    Goes (At locked q vs) checkAllSlacks (At locked q vs) :=
  (Takes.one subset_rfl).add ((loop_goes hq).mono subset_rfl (At.mono (List.subset_cons_self ..)))

theorem reduceProtectedMemory_goes (hq : q.steady = true) :
    Goes (At locked q vs) reduceProtectedMemory (At locked q vs) := by
  have hl : Goes (At locked q vs) (loop .reduce) (At locked q vs) :=
    (loop_goes hq).mono subset_rfl (At.mono (List.subset_cons_self ..))
  exact hl.mul ((Takes.one subset_rfl).add hl)

theorem search_goes (hq : q.steady = true) :
    Goes (At locked q vs) search (At locked q (.allocate :: vs)) :=
  (loop_goes hq).mul
    ((accesses_goes hq List.mem_cons_self).add (reduceProtectedMemory_goes hq)).kstar

theorem slotForUserAddress_goes (hq : q.steady = true) :
    Goes (At locked q vs) slotForUserAddress (At locked q (.lookup :: vs)) := by
  have hl : Goes (At locked q (.lookup :: vs)) (loop .lookup) (At locked q (.lookup :: vs)) :=
    (loop_goes hq).mono subset_rfl (At.mono (List.subset_cons_self ..))
  exact (loop_goes hq).mul ((Takes.one subset_rfl).add hl)

theorem deallocate_goes {delete : Language Step} {q' : Stage} (hq : q.steady = true)
    (hq' : q'.steady = true)
    (hd : Goes (At locked q [.lookup]) delete (At locked q' [.lookup])) :
    Goes (At locked q []) (deallocate delete) (At locked q' []) := by
  refine Takes.mul (Takes.mul (Takes.mul (Takes.mul (checkAllSlacks_goes hq)
    (slotForUserAddress_goes hq)) (Takes.kstar ?_)) hd) ?_
  · exact (accesses_goes hq List.mem_cons_self).add (reduceProtectedMemory_goes hq)
  · exact (accesses_goes hq' List.mem_cons_self).mono subset_rfl (At.mono (List.nil_subset _))

theorem testList_goes (hq : q ≠ .ended) :
    Goes (At locked q vs) (word [.testList]) (At locked q vs) :=
  word_cons (fun p hp => ⟨p, hp, if_neg (hp.2.1 ▸ hq)⟩) word_nil

theorem step_goes {b : Stage} {a : Step} (h : ∀ p ∈ At locked q vs, p.next a =
    some { p with stage := b }) : ∀ p ∈ At locked q vs, ∃ r ∈ At locked b vs, p.next a = some r :=
  fun p hp => ⟨{ p with stage := b }, ⟨hp.1, rfl, hp.2.2⟩, h p hp⟩

theorem allow_goes : Goes (At locked .out vs) allow (At locked .inside vs) := by
  refine word_cons (step_goes (b := .arg) ?_) (word_cons (step_goes (b := .args) ?_)
    (word_cons (step_goes (b := .inside) ?_) word_nil))
  all_goals
    rintro p ⟨-, hq, -⟩
    simp [Point.next, hq]

theorem open_goes : Goes (At false .out vs) open' (At true .inside vs) := by
  refine Takes.mul (Q := At true .out vs) (word_cons ?_ word_nil) allow_goes
  rintro p ⟨hl, hq, hv⟩
  exact ⟨{ p with locked := true }, ⟨rfl, hq, hv⟩, if_pos ⟨hl, hq⟩⟩

theorem deny_goes (hq : q = .inside ∨ q = .growing) (Q : Set Point)
    (h : ∀ p ∈ At locked .closing [], ∃ r ∈ Q, p.next (.protect .noAccess) = some r) :
    Goes (At locked q vs) deny Q := by
  refine word_cons (Q := At locked .closing []) ?_ (word_cons (Q := At locked .closing []) ?_
    (word_cons h word_nil))
  · rintro p ⟨hl, hp, -⟩
    refine ⟨{ p with stage := .closing }, ⟨hl, rfl, by simp⟩, ?_⟩
    rcases hq with rfl | rfl <;> simp [Point.next, hp]
  · rintro p ⟨hl, hp, hv⟩
    exact ⟨p, ⟨hl, hp, hv⟩, by simp [Point.next, hp]⟩

def Point.Over (p : Point) : Prop := p.locked = false

theorem close_goes (hq : q = .inside ∨ q = .growing) :
    Goes (At true q vs) close {p | p.Over} := by
  refine Takes.mul (deny_goes hq (At true .closed []) ?_) (word_cons ?_ word_nil)
  · rintro p ⟨hl, hp, hv⟩
    exact ⟨{ p with stage := .closed }, ⟨hl, rfl, by simp⟩, by simp [Point.next, hp, hl]⟩
  · rintro p ⟨hl, hp, -⟩
    exact ⟨_, rfl, if_pos ⟨hl, hp⟩⟩

/-- The list is open under the lock; the growth of the list may have failed. -/
def Opened (vs : List Ptr) : Set Point := At true .inside vs ∪ At true .growing vs

theorem Opened.goes {l : Language Step}
    (h : ∀ q : Stage, q.steady = true → Goes (At true q vs) l (At true q ws)) :
    Goes (Opened vs) l (Opened ws) := by
  rintro p (hp | hp) w hw
  · exact (h .inside rfl).mono subset_rfl Set.subset_union_left p hp w hw
  · exact (h .growing rfl).mono subset_rfl Set.subset_union_right p hp w hw

theorem allocateMoreSlots_goes :
    Goes (At true .inside []) allocateMoreSlots (Opened []) := by
  have hstart : Goes (At true .inside []) (word [.newSize, .oldAllocation]) (At true .growing []) := by
    refine word_cons (step_goes (b := .sized) ?_) (word_cons (step_goes (b := .growing) ?_) word_nil)
    · rintro p ⟨hl, hq, -⟩
      exact if_pos ⟨hl, hq⟩
    · rintro p ⟨-, hq, -⟩
      exact if_pos hq
  have hinner : Goes (At true .growing []) (checkAllSlacks * search) (At true .growing [.allocate]) :=
    (checkAllSlacks_goes rfl).mul (search_goes rfl)
  have hnew : Goes (At true .growing [.allocate]) (word [.newAllocation])
      (At true .created [.allocate]) := by
    refine word_cons (step_goes ?_) word_nil
    rintro p ⟨-, hq, -⟩
    exact if_pos hq
  have hset : Goes (At true .created [.copy, .allocate]) (word [.setList, .setSize, .addSlots])
      (At true .moved []) := by
    refine word_cons (Q := At true .listSet []) ?_ (word_cons (step_goes (b := .sizeSet) ?_)
      (word_cons (step_goes (b := .moved) ?_) word_nil))
    · rintro p ⟨hl, hq, -⟩
      exact ⟨{ p with stage := .listSet, known := fun _ => false }, ⟨hl, rfl, by simp⟩, if_pos hq⟩
    all_goals
      rintro p ⟨-, hq, -⟩
      exact if_pos hq
  have hdelete : ∀ p, Goes (At true .moved [.lookup]) (word [.deleteOld p])
      (At true .inside [.lookup]) := by
    intro r
    refine word_cons (step_goes ?_) word_nil
    rintro p ⟨-, hq, -⟩
    exact if_pos hq
  have hfree := deallocate_goes (q := .moved) rfl rfl ((hdelete .unmapped).add (hdelete .noAccess))
  refine Takes.mul (hstart.mul hinner) (Takes.add (Takes.one ?_) ?_)
  · intro p hp
    exact Or.inr (At.mono (List.nil_subset _) hp)
  · have hcopy := hnew.mul (accesses_goes rfl List.mem_cons_self) |>.mul (loop_goes (v := .copy) rfl)
    exact (((hcopy.mul hset).mul (testList_goes (by decide))).mul hfree).mono subset_rfl
      Set.subset_union_left

theorem allocate_goes : Goes (At true .inside []) allocate (Opened []) := by
  refine Takes.mul (Q := Opened []) (Takes.mul (checkAllSlacks_goes rfl)
    (Takes.add (Takes.one Set.subset_union_left) allocateMoreSlots_goes)) ?_
  exact Opened.goes fun q hq => (search_goes hq).mono subset_rfl (At.mono (List.nil_subset _))

theorem Opened.close_goes : Goes (Opened vs) close {p | p.Over} := by
  rintro p (hp | hp) w hw
  exacts [Interleaving.close_goes (Or.inl rfl) p hp w hw,
    Interleaving.close_goes (Or.inr rfl) p hp w hw]

theorem ret_goes : Goes (At false .out vs) 1 {p | p.Over} := Takes.one fun _ hp => hp.1

/-- Every call is in order, and ends without the lock. -/
theorem Entry.goes (e : Entry) : Goes {Point.start} e.words {p | p.Over} := by
  have hstart : ({Point.start} : Set Point) ⊆ At false .out [] := by
    rintro _ rfl
    exact ⟨rfl, rfl, by simp⟩
  have htest : Goes (At false .out []) (word [.testList]) (At false .out []) :=
    testList_goes (by decide)
  have hfree : ∀ q : Stage, q.steady = true → Goes (At true q []) (deallocate 1) (At true q []) :=
    fun q hq => deallocate_goes hq hq (Takes.one subset_rfl)
  refine Takes.mono ?_ hstart subset_rfl
  cases e with
  | malloc => exact htest.mul (ret_goes.add ((open_goes.mul allocate_goes).mul Opened.close_goes))
  | free =>
    exact htest.mul (ret_goes.add ((open_goes.mul (hfree .inside rfl)).mul (close_goes (Or.inl rfl))))
  | realloc =>
    have hold : Goes (Opened []) (1 + loop .lookup) (Opened []) :=
      Opened.goes fun q hq => (Takes.one subset_rfl).add
        ((loop_goes hq).mono subset_rfl (At.mono (List.nil_subset _)))
    have hdel : Goes (Opened []) (1 + word [.testList] * (1 + deallocate 1)) (Opened []) := by
      refine Opened.goes fun q hq => (Takes.one subset_rfl).add (Takes.mul (testList_goes ?_)
        ((Takes.one subset_rfl).add (hfree q hq)))
      rintro rfl
      cases hq
    exact ((htest.mul open_goes).mul (((Takes.one Set.subset_union_left).add
      (allocate_goes.mul hold)).mul hdel)).mul Opened.close_goes
  | check =>
    exact ret_goes.add ((open_goes.mul (slotForUserAddress_goes rfl)).mul (close_goes (Or.inl rfl)))
  | checkAll => exact (open_goes.mul (loop_goes rfl)).mul (close_goes (Or.inl rfl))
  | mallocUsableSize =>
    refine ret_goes.add (((htest.mul allow_goes).mul (loop_goes rfl)).mul
      (deny_goes (Or.inl rfl) _ ?_))
    rintro p ⟨hl, hq, -⟩
    exact ⟨⟨false, .ended, fun _ => false⟩, rfl, by simp [Point.next, hl, hq]⟩
  | delFrame =>
    exact ((((fetch_goes (Or.inl ⟨rfl, rfl⟩)).mul open_goes).mul
      (accesses_goes rfl List.mem_cons_self))).mul (close_goes (Or.inl rfl))

/-! ## What the steps of a call say about its point -/

def Stage.lockless : Stage → Bool
  | .out | .arg | .args | .inside | .closing | .ended => true
  | _ => false

def Point.Fetches (p : Point) : Prop :=
  p.stage = .arg ∨ p.stage = .args ∨ p.stage = .inside ∨ p.stage = .closing ∨ ∃ v, p.known v = true

structure Traced (done : List Step) (p : Point) : Prop where
  lockless : p.locked = false → p.stage.lockless = true
  get : p.locked = false → p.stage ≠ .ended → .get ∉ done
  ended : p.stage = .ended → ∀ v, p.known v = false
  fetched : p.locked = false → p.Fetches → .argList ∈ done ∨ ∃ v, .fetchSlot v ∈ done
  opened : p.stage.opened = true → .protect .readWrite ∈ done

theorem Traced.start : Traced [] Point.start :=
  ⟨fun _ => rfl, fun _ _ => List.not_mem_nil, fun _ _ => rfl,
    fun _ h => (by simp [Point.Fetches, Point.start] at h), fun h => (by cases h)⟩

theorem Traced.next {done : List Step} {p p' : Point} {a : Step} (h : Traced done p)
    (hn : p.next a = some p') : Traced (done ++ [a]) p' := by
  obtain ⟨lk, st, kn⟩ := p
  obtain ⟨h1, h2, h3, h4, h5⟩ := h
  cases a with
  | protect r =>
    cases r with
    | unmapped => cases hn
    | _ =>
      simp only [Point.next, Option.ite_none_right_eq_some, Option.some.injEq] at hn
      obtain ⟨hst, rfl⟩ := hn
      constructor <;> grind -ring -linarith [Stage.lockless, Stage.opened, Point.Fetches]
  | fetchSlot v =>
    simp only [Point.next, Option.ite_none_right_eq_some, Option.some.injEq] at hn
    obtain ⟨hst, rfl⟩ := hn
    constructor <;>
      grind -ring -linarith [Stage.lockless, Stage.opened, Stage.steady, Point.Fetches]
  | _ =>
    simp only [Point.next] at hn
    split_ifs at hn <;> cases hn <;> constructor <;>
      grind -ring -linarith [Stage.lockless, Stage.opened, Point.Fetches]

end Duma.Interleaving
