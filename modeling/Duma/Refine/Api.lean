import Duma.Refine.Construct
import Duma.Model.Run

/-! # The public functions

What each public function has done when it returns, in terms of allocations and deallocations.
-/

namespace Duma

variable {env : Env} {s t : State} {settings : Settings} {r : Request} {site : Site}
  {address oldBuffer newSize size n p : ℕ} {allocator : Allocator} {α β : Type} {m : M α}
  {Q R : α → State → Prop} {A : Stop → Prop} {len : ℕ → ℕ}

/-- What holds when a program returns. -/
abbrev Post (m : M α) (Q : α → State → Prop) (s : State) : Prop := Wp m Q (fun _ _ => True) s

/-- An allocation of the program, by one of its requests. -/
abbrev Served' (env : Env) (r : Request) (s : State) (p : ℕ) (t : State) : Prop :=
  Allocated env (Inners env) (Asked env (s.sizeFor env r) (s.alignFor r) r) r s p t

/-- Whatever an allocation records as a chunk has been mapped. -/
structure State.BacksAlloc (env : Env) (len : ℕ → ℕ) (s : State) (r : Request) : Prop where
  list : s.BacksList env len
  chunk : ∀ t, s.searchedBy env len r = some t → t.BacksChunk env len (s.sizeFor env r) r

theorem State.backsAlloc_id : s.BacksAlloc env id r := ⟨backs_id, fun _ _ _ => backs_id⟩

theorem allocateBy_post (h : s.BacksAlloc env len r) (huser : r.allocator.type ≠ .internal)
    (hT : Tidy env s) : Post (allocateBy env len r) (Served' env r s) s :=
  (allocate_wp (A := fun _ => True) (B := False) h.chunk h.list huser hT False.elim False.elim).mono
    (fun _ _ => id) fun _ _ _ => trivial

theorem allocate_post (huser : r.allocator.type ≠ .internal) (hT : Tidy env s) :
    Post (allocate env r) (Served' env r s) s := allocateBy_post State.backsAlloc_id huser hT

theorem deallocate_post {b : Bool} : Post (deallocate env address b allocator site)
    (fun _ t => Deallocated env address b allocator site s t) s :=
  (deallocate_wp (fun _ => False) (A := fun _ => True) (B := False) False.elim
    ⟨fun _ _ _ _ => trivial, fun _ _ _ => trivial⟩ fun _ => trivial).mono
    (fun _ _ => id) fun _ _ _ => trivial

theorem openAllocList_post : Post (openAllocList env) (fun _ t => t = s.opened env) s :=
  (openAllocList_wp (A := fun _ => True) (B := False) False.elim).mono (fun _ _ => id)
    fun _ _ _ => trivial

theorem closeAllocList_post : Post (closeAllocList env) (fun _ t => t = s.closed env) s :=
  (closeAllocList_wp (A := fun _ => True) (B := False) False.elim).mono (fun _ _ => id)
    fun _ _ _ => trivial

theorem storeRange_post {lo hi : ℕ} {f : ℕ → UInt8} :
    Post (storeRange env lo hi f) (fun _ t => t = s.store lo hi f) s :=
  storeRange_wp (fun _ _ => rfl) (fun _ => trivial) fun _ _ _ => trivial

section Ends

/-- A stop that is no report of the no man's land, nor one for want of memory or of an empty
slot. -/
def Stop.ordinary : Stop → Bool
  | .abort (.mmapFailed _) => false
  | .abort (.slackBelow _) => false
  | .abort (.slackAbove _) => false
  | .abort (.noEmptySlot _) => false
  | .nullSlot => false
  | _ => true

/-- The program stops only in the ways that `A` allows. -/
abbrev Ends (A : Stop → Prop) (m : M α) (t : State) : Prop :=
  Wp m (fun _ _ => True) (fun e _ => A e) t

theorem Ends.seq {f : α → M β} (h : Ends A m t)
    (hf : ∀ a u, m t = .ok a u → Ends A (f a) u) : Ends A (m >>= f) t :=
  Wp.seq (R := fun a u => m t = .ok a u) (Wp.mono h.keep (fun _ _ h => h.1) fun _ _ => id) hf

variable (hA : ∀ e : Stop, e.ordinary = true → A e)
include hA

theorem touch_ends {lo hi : ℕ} : Ends A (touch env lo hi) t :=
  touch_wp (fun _ => trivial) fun _ => hA _ rfl

theorem storeRange_ends {lo hi : ℕ} {f : ℕ → UInt8} : Ends A (storeRange env lo hi f) t :=
  storeRange_wp (fun _ _ => trivial) (fun _ => hA _ rfl) fun _ _ _ => hA _ rfl

theorem mprotect_ends {a : ℕ} {page : Page} : Ends A (mprotect env a n page) t :=
  mprotect_wp (fun _ => trivial) fun _ => hA _ rfl

theorem readSlots_ends : Ends A (readSlots env) t :=
  Wp.bind_iff.mpr (Wp.get_iff.mpr ((touch_ends hA).seq fun _ _ _ => trivial))

theorem openAllocList_ends : Ends A (openAllocList env) t := by
  refine Ends.seq (Wp.bind_iff.mpr (Wp.get_iff.mpr (Wp.ite (fun _ => trivial) fun _ => trivial)))
    fun _ u _ => Wp.bind_iff.mpr (Wp.get_iff.mpr (mprotect_ends hA))

theorem closeAllocList_ends : Ends A (closeAllocList env) t := by
  refine Wp.bind_iff.mpr (Wp.get_iff.mpr ((mprotect_ends hA).seq fun _ u _ => ?_))
  refine Wp.bind_iff.mpr (Wp.get_iff.mpr (Wp.ite (fun _ => trivial) fun _ => Wp.ite (fun _ => ?_)
    fun _ => trivial))
  exact hA _ rfl

end Ends

section Demand

theorem initOnDemand_post (h : s.allocList ≠ 0) {Q : Unit → State → Prop} (hQ : Q () s) :
    Post (initOnDemand env settings) Q s :=
  Wp.bind_iff.mpr (Wp.get_iff.mpr (Wp.ite (fun h' => absurd h' h) fun _ => hQ))

variable (hT : Tidy env s)
include hT

theorem demand_post {k : Unit → M α} (hk : Post (k ()) Q s) :
    Post (initOnDemand env settings >>= k) Q s :=
  Wp.seq (R := fun _ t => t = s) (initOnDemand_post hT.pos rfl) fun _ _ h => h ▸ hk

theorem malloc_post : Post (malloc env settings size site)
    (Served' env (s.tls.mallocRequest size site) s) s :=
  demand_post hT (Wp.bind_iff.mpr (Wp.get_iff.mpr (allocate_post nofun hT)))

theorem calloc_post {nelem elsize : ℕ} : Post (calloc env settings nelem elsize site)
    (Served' env (s.tls.callocRequest nelem elsize site) s) s :=
  demand_post hT (Wp.bind_iff.mpr (Wp.get_iff.mpr (allocate_post nofun hT)))

theorem memalign_post {alignment : ℕ} : Post (memalign env settings alignment size site)
    (Served' env (s.tls.memalignRequest alignment size site) s) s :=
  demand_post hT (Wp.bind_iff.mpr (Wp.get_iff.mpr (allocate_post nofun hT)))

theorem valloc_post : Post (valloc env settings size site)
    (Served' env (s.tls.vallocRequest env size site) s) s :=
  demand_post hT (Wp.bind_iff.mpr (Wp.get_iff.mpr (allocate_post nofun hT)))

theorem newOperator_post (hu : allocator.type ≠ .internal) :
    Post (newOperator env settings size allocator site)
      (Served' env (s.tls.newRequest size allocator site) s) s :=
  demand_post hT (Wp.bind_iff.mpr (Wp.get_iff.mpr (allocate_post hu hT)))

theorem posixMemalign_post {alignment : ℕ} : Post (posixMemalign env settings alignment size site)
    (fun v t => v = .einval ∧ t = s ∨ ∃ p,
      Served' env (s.tls.posixMemalignRequest alignment size site) s p t ∧
        v = if p ≠ 0 then .ok p else .enomem) s := by
  refine Wp.ite (fun _ => Or.inl ⟨rfl, rfl⟩) fun _ => demand_post hT ?_
  refine Wp.bind_iff.mpr (Wp.get_iff.mpr (Wp.seq (allocate_post nofun hT) fun p t ht => ?_))
  refine Wp.ite (fun h => Or.inr ⟨p, ht, ?_⟩) fun h => Or.inr ⟨p, ht, ?_⟩
  · rw [if_pos h]
  · rw [if_neg h]

theorem free_post : Post (free env settings address site)
    (fun _ t => Deallocated env address true .free site s t) s :=
  demand_post hT deallocate_post

end Demand

section Copy

def State.copied (s : State) (ptr oldBuffer oldSize newSize : ℕ) : State :=
  let f := fun x => s.mem (oldBuffer + (x - ptr))
  if oldSize < newSize then
    (s.store ptr (ptr + oldSize) f).store (ptr + oldSize) (ptr + newSize) fun _ => 0
  else s.store ptr (ptr + newSize) f

theorem memcpyAccess_post {dest src n : ℕ} :
    Post (memcpyAccess env dest src n) (fun _ t => t = s ∧ n < 2 ^ 32) s := by
  refine Wp.bind_iff.mpr (Wp.get_iff.mpr (Wp.ite (fun _ => trivial) fun _ => ?_))
  refine Wp.bind_iff.mpr (touch_wp (fun _ => ?_) fun _ => trivial)
  refine Wp.bind_iff.mpr (touch_wp (fun _ => ?_) fun _ => trivial)
  exact Wp.ite (fun _ => trivial) fun h => ⟨rfl, not_le.mp h⟩

theorem memcpy_post {dest src n : ℕ} : Post (memcpy env dest src n)
    (fun _ t => t = s.store dest (dest + n) (fun x => s.mem (src + (x - dest))) ∧ n < 2 ^ 32) s := by
  refine Wp.seq memcpyAccess_post ?_
  rintro _ _ ⟨rfl, hn⟩
  exact Wp.bind_iff.mpr (Wp.get_iff.mpr (storeRange_post.post fun _ _ ht => ⟨ht, hn⟩))

theorem slotForUserAddress_post : Post (slotForUserAddress env address)
    (fun v t => v = findSlot (·.userAddress == address) s.slots ∧ t = s) s :=
  Wp.mono (@slotForUserAddress_ensures env (fun _ => False) s address fun _ => True) (fun _ _ => id)
    fun _ _ _ => trivial

/-- What a `realloc` that copies has done behind the opening of the list. -/
inductive Moved (env : Env) (oldBuffer newSize : ℕ) (site : Site) (s : State) (p : ℕ) :
    State → Prop
  | failed {t : State} (h : Served' env (s.tls.reallocRequest newSize site) s p t) (hp : p = 0) :
      Moved env oldBuffer newSize site s p t
  | done {t u : State} {i : ℕ} {sl : Slot}
      (h : Served' env (s.tls.reallocRequest newSize site) s p t) (hp : p ≠ 0)
      (hi : t.slots[i]? = some sl) (hu : sl.userAddress = oldBuffer)
      (hd : Deallocated env oldBuffer false .realloc site
        (t.copied p oldBuffer sl.userSize newSize) u) : Moved env oldBuffer newSize site s p u

theorem reallocCopyBy_post (h : s.BacksAlloc env len (s.tls.reallocRequest newSize site))
    (hT : Tidy env s) : Post (reallocCopyBy env len oldBuffer newSize site)
      (Moved env oldBuffer newSize site s) s := by
  refine Wp.bind_iff.mpr (Wp.get_iff.mpr (Wp.seq (allocateBy_post h nofun hT) fun p t ht => ?_))
  refine Wp.ite (fun hp => .failed (hp ▸ ht) rfl) fun hp => ?_
  refine Wp.seq slotForUserAddress_post ?_
  rintro _ u ⟨rfl, hu⟩
  subst hu
  cases hf : findSlot (·.userAddress == oldBuffer) u.slots with
  | none => exact trivial
  | some v =>
    obtain ⟨i, sl⟩ := v
    obtain ⟨hi, hu⟩ := findSlot_some hf
    have hu : sl.userAddress = oldBuffer := by simpa using hu
    have finish : ∀ w, w = u.copied p oldBuffer sl.userSize newSize → Post (do
        deallocate env oldBuffer false .realloc site
        pure p) (Moved env oldBuffer newSize site s) w := by
      rintro w rfl
      exact Wp.seq deallocate_post fun _ v hv => .done ht hp hi hu hv
    refine Wp.ite (fun hlt => Wp.seq memcpy_post ?_) fun hlt => Wp.seq memcpy_post ?_
    · rintro _ _ ⟨rfl, -⟩
      refine Wp.seq storeRange_post ?_
      rintro _ _ rfl
      exact finish _ (by rw [State.copied, if_pos hlt])
    · rintro _ _ ⟨rfl, -⟩
      exact finish _ (by rw [State.copied, if_neg hlt])

inductive Realloced (env : Env) (oldBuffer newSize : ℕ) (site : Site) (s : State) (p : ℕ)
    (t : State) : Prop
  | new (h0 : oldBuffer = 0) (h : Served' env (s.tls.reallocNewRequest newSize site) s p t)
  | free (h0 : oldBuffer ≠ 0) (hn : newSize = 0) (hp : p = 0)
      (h : Deallocated env oldBuffer false .realloc site s t)
  | move (h0 : oldBuffer ≠ 0) (hn : newSize ≠ 0) (h : Moved env oldBuffer newSize site s p t)

theorem reallocBy_post
    (hnew : oldBuffer = 0 → (s.opened env).BacksAlloc env len (s.tls.reallocNewRequest newSize site))
    (hmove : oldBuffer ≠ 0 → (s.opened env).BacksAlloc env len (s.tls.reallocRequest newSize site))
    (hT : Tidy env s) : Post (reallocBy env settings len oldBuffer newSize site)
      (fun p t => ∃ u, Realloced env oldBuffer newSize site (s.opened env) p u ∧
        t = u.closed env) s := by
  refine demand_post hT (Wp.seq openAllocList_post ?_)
  rintro _ _ rfl
  have hTo : Tidy env (s.opened env) := 
    hT.silents (silents_opened : Silents env (fun _ => False) s (s.opened env))
  have close : ∀ p u, Realloced env oldBuffer newSize site (s.opened env) p u → Post (do
      closeAllocList env
      pure p) (fun p t => ∃ u, Realloced env oldBuffer newSize site (s.opened env) p u ∧
        t = u.closed env) u := by
    intro p u hu
    refine Wp.seq closeAllocList_post ?_
    rintro _ _ rfl
    exact ⟨u, hu, rfl⟩
  refine Wp.ite (fun h0 => Wp.bind_iff.mpr (Wp.get_iff.mpr ?_)) fun h0 => Wp.ite (fun hn => ?_)
    fun hn => ?_
  · exact Wp.seq (allocateBy_post (hnew h0) nofun hTo) fun p u hu => close p u (.new h0 hu)
  · exact Wp.seq deallocate_post fun _ u hu => close 0 u (.free h0 hn rfl hu)
  · exact Wp.seq (reallocCopyBy_post (hmove h0) hTo) fun p u hu => close p u (.move h0 hn hu)

theorem realloc_post (hT : Tidy env s) : Post (realloc env settings oldBuffer newSize site)
    (fun p t => ∃ u, Realloced env oldBuffer newSize site (s.opened env) p u ∧
      t = u.closed env) s :=
  reallocBy_post (fun _ => State.backsAlloc_id) (fun _ => State.backsAlloc_id) hT

theorem strEnd_same (count x : ℕ) : Post (strEnd env count x) (fun _ t => t = s) s := by
  induction count generalizing x with
  | zero => exact trivial
  | succ count ih =>
    exact Wp.bind_iff.mpr (Wp.get_iff.mpr (Wp.ite (fun _ => trivial) fun _ =>
      Wp.ite (fun _ => rfl) fun _ => ih (x + 1)))

inductive Dupped (env : Env) (str : ℕ) (site : Site) (s : State) (p : ℕ) : State → Prop
  | failed {size : ℕ} {t : State} (hs : strlen env str s = .ok size s)
      (h : Served' env (s.tls.strdupRequest size site) s p t) (hp : p = 0) :
      Dupped env str site s p t
  | done {size : ℕ} {t : State} (hs : strlen env str s = .ok size s)
      (h : Served' env (s.tls.strdupRequest size site) s p t) (hp : p ≠ 0)
      (hn : size + 1 < 2 ^ 32) : Dupped env str site s p
        (t.store p (p + (size + 1)) fun x => t.mem (str + (x - p)))

theorem strlen_post {str : ℕ} :
    Post (strlen env str) (fun n t => strlen env str s = .ok n s ∧ t = s) s := by
  have hsame : Post (strlen env str) (fun _ t => t = s) s :=
    Wp.seq (strEnd_same _ _) fun _ _ h => h
  refine Wp.intro (fun n t hr => ?_) fun _ _ _ => trivial
  obtain rfl := hsame.returns hr
  exact ⟨hr, rfl⟩

theorem dupString_post (hT : Tidy env s) {str : ℕ} : Post (dupString env str site)
    (Dupped env str site s) s := by
  refine Wp.seq strlen_post ?_
  rintro n _ ⟨hs, rfl⟩
  refine Wp.bind_iff.mpr (Wp.get_iff.mpr (Wp.seq (allocate_post nofun hT) fun p t ht => ?_))
  refine Wp.ite (fun hp => .failed hs (hp ▸ ht) rfl) fun hp => ?_
  refine Wp.bind_iff.mpr (touch_wp (fun _ => ?_) fun _ => trivial)
  refine Wp.bind_iff.mpr (touch_wp (fun _ => ?_) fun _ => trivial)
  refine Wp.ite (fun _ => trivial) fun hn => ?_
  refine Wp.bind_iff.mpr (Wp.bind_iff.mpr (Wp.get_iff.mpr (storeRange_post.post ?_)))
  rintro _ _ rfl
  exact .done hs ht hp (not_le.mp hn)

theorem strdup_post (hT : Tidy env s) {str : ℕ} : Post (strdup env settings str site)
    (Dupped env str site s) s :=
  demand_post hT (dupString_post hT)

end Copy

section Initialise

inductive Copies (env : Env) : List (ℕ × Site) → State → State → Prop
  | nil {s : State} : Copies env [] s s
  | cons {str : ℕ} {site : Site} {rest : List (ℕ × Site)} {s u t : State} {p : ℕ}
      (h : Dupped env str site s p u) (hr : Copies env rest u t) :
      Copies env ((str, site) :: rest) s t

theorem Served'.tidy (hT : Tidy env s) (h : Served' env r s p t) : Tidy env t := by
  cases h with
  | null hb _ _ ht => exact ht ▸ hT.silents (hb.silents : Silents env (fun _ => False) s _)
  | @served b u hb h ht =>
    have hfill : ∀ v : State, Tidy env v → Tidy env (v.filled r p) := fun v hv => by
      unfold State.filled
      split
      exacts [hv.congr rfl rfl rfl, hv]
    have hin : Tidy env (State.entered env r.protectAllocList { s with book := b }) :=
      hT.silents ((hb.silents : Silents env (fun _ => False) s _).trans silents_entered)
    have hu : Tidy env u := by
      cases h with
      | none h _ => exact hin.inners h
      | some h hT' _ => exact (hin.inners h).take hT'
    rw [ht]
    exact hfill _ (hu.silents (silents_left : Silents env (fun _ => False) u _))

theorem Dupped.tidy {str : ℕ} (hT : Tidy env s) (h : Dupped env str site s p t) : Tidy env t := by
  cases h with
  | failed _ h => exact h.tidy hT
  | done _ h => exact (h.tidy hT).congr rfl rfl rfl

theorem dupStrings_post (copies : List (ℕ × Site)) (hT : Tidy env s) :
    Post (dupStrings env copies) (fun _ t => Copies env copies s t) s := by
  induction copies generalizing s with
  | nil => exact .nil
  | cons c rest ih =>
    obtain ⟨str, site⟩ := c
    exact Wp.seq (dupString_post hT) fun p u hu => (ih (hu.tidy hT)).post fun _ _ h => .cons hu h

def State.early (s : State) (settings : Settings) : State :=
  { s with cfg := { settings.cfg with checkFreq := s.cfg.checkFreq }, tls := settings.tls }

/-- What `duma_init` has done when it was not done before. -/
structure Initialised (env : Env) (settings : Settings) (s : State) (p : ℕ) (u v w t : State) :
    Prop where
  copies : Copies env settings.copies (s.early settings) u
  served : Served' env (settings.tls.mallocRequest 123 Site.unknown)
    { u with cfg := settings.cfg } p v
  freed : Deallocated env p true .free Site.unknown v w
  eq : t = { w with initDone := true }

theorem Copies.tidy {copies : List (ℕ × Site)} (hT : Tidy env s) (h : Copies env copies s t) :
    Tidy env t := by
  induction h with
  | nil => exact hT
  | cons h _ ih => exact ih (h.tidy hT)

theorem Served'.tls (h : Served' env r s p t) : t.tls = s.tls := by
  cases h with
  | null _ _ _ ht => exact ht ▸ rfl
  | @served b u _ h ht =>
    have hfill : ∀ v : State, (v.filled r p).tls = v.tls := fun v => by
      unfold State.filled
      split <;> rfl
    have hleft : ∀ v : State, (v.left env r.protectAllocList).tls = v.tls := fun v => by
      cases r.protectAllocList <;> rfl
    have hin : (State.entered env r.protectAllocList { s with book := b }).tls = s.tls := by
      cases r.protectAllocList <;> rfl
    rw [ht, hfill, hleft, (h.same within_inners).tls, hin]

theorem Dupped.tls {str : ℕ} (h : Dupped env str site s p t) : t.tls = s.tls := by
  cases h with
  | failed _ h => exact h.tls
  | done _ h => exact h.tls

theorem Copies.tls {copies : List (ℕ × Site)} (h : Copies env copies s t) : t.tls = s.tls := by
  induction h with
  | nil => rfl
  | cons h _ ih => exact ih.trans h.tls

theorem dumaInit_post (hT : Tidy env s) : Post (dumaInit env settings) (fun _ t =>
    s.initDone = true ∧ t = s ∨
      s.initDone = false ∧ ∃ p u v w, Initialised env settings s p u v w t) s := by
  refine Wp.bind_iff.mpr (Wp.get_iff.mpr (Wp.ite (fun h => Or.inl ⟨h, rfl⟩) fun h => ?_))
  refine Wp.seq (R := fun _ t => ∃ u, Copies env settings.copies (s.early settings) u ∧
    t = { u with cfg := settings.cfg }) ?_ ?_
  · refine Wp.bind_iff.mpr (Wp.modify_iff.mpr (Wp.seq (dupStrings_post (s := s.early settings) _
      (hT.congr rfl rfl rfl)) fun _ u hu => Wp.modify_iff.mpr ⟨u, hu, rfl⟩))
  rintro - _ ⟨u, hu, rfl⟩
  have hTs : Tidy env (s.early settings) := hT.congr rfl rfl rfl
  have hTu : Tidy env { u with cfg := settings.cfg } := (hu.tidy hTs).congr rfl rfl rfl
  refine Wp.seq (allocate_post nofun hTu) fun p v hv => ?_
  refine Wp.bind_iff.mpr (Wp.get_iff.mpr (Wp.ite (fun _ => Wp.bind_iff.mpr trivial) fun _ => ?_))
  refine Wp.seq deallocate_post fun _ w hw => ?_
  refine Wp.bind_iff.mpr (Wp.get_iff.mpr (Wp.ite (fun _ => Wp.bind_iff.mpr trivial) fun _ => ?_))
  exact Or.inr ⟨by simpa using h, p, u, v, w, hu, hv, hw, rfl⟩

theorem boot_post : Post (boot env settings) (fun _ t => ∃ s₀, Constructed env s₀ ∧
    (env.explicitInit = true ∧ t = s₀ ∨ env.explicitInit = false ∧ ∃ p u v w,
      Initialised env settings s₀ p u v w t)) (State.pristine env) := by
  refine Wp.seq construct_wp fun _ s₀ h₀ => Wp.ite (fun h => ⟨s₀, h₀, Or.inl ⟨h, rfl⟩⟩) fun h => ?_
  refine (dumaInit_post h₀.tidy).mono ?_ fun _ _ => id
  rintro _ t (⟨h1, -⟩ | ⟨-, ht⟩)
  · rw [h₀.initDone] at h1; cases h1
  · exact ⟨s₀, h₀, Or.inr ⟨by simpa using h, ht⟩⟩

end Initialise

section Check

theorem check_post : Post (check env address)
    (fun _ t => t = s ∨ t = (s.opened env).closed env) s := by
  refine Wp.ite (fun _ => Or.inl rfl) fun _ => Wp.seq openAllocList_post ?_
  rintro _ _ rfl
  refine Wp.seq (R := fun _ t => t = s.opened env) ?_ ?_
  · refine Wp.seq slotForUserAddress_post ?_
    rintro v t ⟨rfl, ht⟩
    subst ht
    cases findSlot (·.userAddress == address) (s.opened env).slots with
    | none => exact Wp.seq (R := fun _ _ => True) (Wp.intro (fun _ _ _ => trivial)
        fun _ _ _ => trivial) fun _ _ _ => trivial
    | some v => exact Wp.ite (fun _ => trivial) fun _ => rfl
  · rintro sl _ rfl
    refine Wp.seq (checkSlack_same.mono (fun _ _ => id) fun _ _ _ => trivial) ?_
    rintro _ _ rfl
    exact closeAllocList_post.post fun _ _ h => Or.inr h

theorem checkAll_post : Post (checkAll env) (fun _ t => t = (s.opened env).closed env) s := by
  refine Wp.seq openAllocList_post ?_
  rintro _ _ rfl
  refine Wp.seq (R := fun _ t => t = s.opened env) ?_ ?_
  · refine Wp.seq (R := fun _ t => t = s.opened env) ?_ fun l t ht =>
      ht ▸ (checkSlacks_same l).mono (fun _ _ h => h.trans rfl) fun _ _ _ => trivial
    exact Wp.bind_iff.mpr (Wp.get_iff.mpr (Wp.bind_iff.mpr
      (touch_wp (fun _ => rfl) fun _ => trivial)))
  · rintro _ _ rfl
    exact closeAllocList_post

theorem mprotect_post {a n : ℕ} {q : Page} : Post (mprotect env a n q)
    (fun _ t => t = s.setPages env a (a + env.roundUp n) q) s :=
  mprotect_wp (fun _ => rfl) fun _ => trivial

theorem mallocUsableSize_post : Post (mallocUsableSize env address)
    (fun _ t => t = s ∨ t = (s.setList env .readWrite).setList env .noAccess) s := by
  refine Wp.bind_iff.mpr (Wp.get_iff.mpr (Wp.ite (fun _ => Or.inl rfl) fun _ => ?_))
  refine Wp.ite (fun _ => Wp.bind_iff.mpr trivial) fun _ => ?_
  refine Wp.seq mprotect_post ?_
  rintro _ _ rfl
  refine Wp.seq slotForUserAddress_post ?_
  rintro v t ⟨rfl, ht⟩
  subst ht
  cases findSlot (·.userAddress == address) _ with
  | none => exact trivial
  | some v =>
    refine Wp.seq mprotect_post ?_
    rintro _ _ rfl
    exact Or.inr rfl

theorem delFrame_post : Post (delFrame env) (fun rep t =>
    rep = reportLeaks env s.cfg.reportAllLeaks s.slots ⟨[], 0, 0⟩ ∧
      t = (s.opened env).closed env) s := by
  refine Wp.seq openAllocList_post ?_
  rintro _ _ rfl
  refine Wp.bind_iff.mpr (Wp.get_iff.mpr (Wp.seq (R := fun l t => l = s.slots ∧ t = s.opened env) ?_ ?_))
  · exact Wp.bind_iff.mpr (Wp.get_iff.mpr (Wp.bind_iff.mpr
      (touch_wp (fun _ => ⟨rfl, rfl⟩) fun _ => trivial)))
  · rintro _ _ ⟨rfl, rfl⟩
    exact Wp.seq closeAllocList_post fun _ t ht => ⟨rfl, ht⟩

end Check

end Duma
