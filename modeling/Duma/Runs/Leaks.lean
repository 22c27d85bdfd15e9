import Duma.Runs.Contents
import Duma.Runs.Guards
import Duma.Runs.Pointers

/-! # The leak report

In a build that initialises itself, with settings that keep no copies of strings, the slots of users in
use are those of the blocks that the program holds. So the leak report is about these blocks.
-/

namespace Duma

variable {α : Type*} {env : Env} {settings : Settings} {w w' : World} {s t : State}
  {heap : List Block} {W : List Block → ℕ → ℕ → Prop} {b b' : Block} {i k : ℕ} {sl : Slot}
  {all : Bool}

section Lists

theorem filterMap_range (l : List α) :
    (List.range l.length).filterMap (fun i => l[i]?) = l := by
  induction l with
  | nil => rfl
  | cons a l ih =>
    rw [List.length_cons, List.range_succ_eq_map, List.filterMap_cons]
    simp only [List.getElem?_cons_zero, List.filterMap_map]
    simpa [Function.comp_def] using ih

theorem perm_filter {l : List α} {p : α → Bool} {is : List ℕ} (hn : is.Nodup)
    (hi : ∀ i, i ∈ is ↔ ∃ a, l[i]? = some a ∧ p a = true) :
    (is.filterMap fun i => l[i]?).Perm (l.filter p) := by
  have hf : l.filter p =
      ((List.range l.length).filter fun i => l[i]?.any p).filterMap fun i => l[i]? := by
    conv_lhs => rw [← filterMap_range l]
    rw [List.filter_filterMap, List.filterMap_filter]
    refine List.filterMap_congr fun i _ => ?_
    cases l[i]? with
    | none => rfl
    | some a => by_cases h : p a <;> simp [Option.filter, h]
  rw [hf]
  refine List.Perm.filterMap _
    ((List.perm_ext_iff_of_nodup hn (List.nodup_range.filter _)).mpr fun i => ?_)
  rw [hi, List.mem_filter, List.mem_range, Option.any_eq_true]
  exact ⟨fun ⟨a, ha, hp⟩ => ⟨(List.getElem?_eq_some_iff.mp ha).1, a, ha, hp⟩, fun h => h.2⟩

end Lists

/-- Every slot of a user in use is that of a block of the program. -/
def World.Covered (w : World) : Prop :=
  ∀ ⦃k : ℕ⦄ ⦃sl : Slot⦄, w.st.slots[k]? = some sl → sl.IsUser → ∃ b ∈ w.heap, b.slot = k

section Covered

/-- Every step of a build that initialises itself keeps the slots those of blocks. -/
theorem World.Act.covered (hx : env.explicitInit = false) (h : w.Matched env) (hc : w.Covered)
    (ha : World.Act env W w w') : w'.Covered := by
  intro k sl hk hu
  cases ha with
  | silent hok hs => exact hc ((hs.calm hok h.safe.core).keeps.back hk hu) hu
  | @take heap s t n al i r l b hS hus ht hans =>
    obtain ⟨old, new, hT⟩ := ht.taken h.safe.core hS
    by_cases hik : i = k
    · exact ⟨b, List.mem_cons_self, hans.slot.trans hik⟩
    · have hk : t.slots[k]? = some sl := hk
      rw [hT.slot, if_neg hik] at hk
      obtain ⟨b', hb', hs⟩ := hc hk hu
      exact ⟨b', List.mem_cons_of_mem _ hb', hs⟩
  | @release heap s t i old site hi huo hr =>
    obtain ⟨hne, hk'⟩ :=
      (hr.keepsOthers h.safe.core hi (huo.1.trans_ne (by decide))).back hk hu
    obtain ⟨b, hb, hs⟩ := hc hk' hu
    refine ⟨b, List.mem_filter.mpr ⟨hb, bne_iff_ne.mpr fun he => hne ?_⟩, hs⟩
    obtain ⟨sl', hi', hcar⟩ := h.held b hb
    have hne0 := h.safe.core.userAddress_ne hi huo
    rw [← hs]
    exact h.safe.core.eq_of_user hi' hi (hcar.addr.trans (Option.some.inj he).symm)
      (by rw [hcar.addr, ← Option.some.inj he]; exact hne0.1)
  | @fill heap s b₀ b' lo hi f hsame =>
    obtain ⟨b, hb, hs⟩ := hc hk hu
    rcases List.mem_cons.mp hb with rfl | hb
    · exact ⟨b', List.mem_cons_self, hsame.slot.trans hs⟩
    · exact ⟨b, List.mem_cons_of_mem _ hb, hs⟩
  | @write heap s lo hi f =>
    obtain ⟨b, hb, hs⟩ := hc hk hu
    exact ⟨b.write lo hi f, List.mem_map_of_mem hb, hs⟩
  | forget hx' =>
    rw [hx] at hx'
    cases hx'
  | set => exact hc hk hu
  | initDone => exact hc hk hu

theorem World.Acts.covered (hx : env.explicitInit = false) (h : w.Matched env) (hc : w.Covered)
    (ha : World.Acts env W w w') : w'.Covered := by
  induction ha with
  | refl => exact hc
  | tail hs ha ih => exact ha.covered hx (World.Acts.matched h hs) ih

theorem Run.covered (hx : env.explicitInit = false) (hcop : settings.copies = [])
    (hset : settings.Proper env) (hw : Run env settings w) : w.Covered := by
  induction hw with
  | start h =>
    obtain ⟨s₀, h₀, ⟨hx', -⟩ | ⟨-, p, u, v, x, hi⟩⟩ := boot_post.returns h
    · rw [hx] at hx'
      cases hx'
    · have hm₀ : World.Matched env ⟨[], s₀⟩ := ⟨h₀.safe, nofun, List.nodup_nil⟩
      have ha : World.Acts env (fun _ _ _ => True) ⟨[], s₀⟩ ⟨[], _⟩ :=
        Initialised.world (w := ⟨[], s₀⟩) (Or.inr ⟨rfl, hcop⟩) hm₀ (hset hx) hi
      exact World.Acts.covered hx hm₀ (fun k sl hk hu => absurd hu (h₀.not_isUser hk)) ha
  | @step w w' c hw hA h ih =>
    obtain ⟨he⟩ := h
    have hpub : Reach env settings (fun _ c => c.Public) w := hw.mono _ _ fun _ _ h => h.public
    have hm := Run.matched hset hw
    exact World.Acts.covered hx hm ih ((Call.exec_world (W := fun _ _ _ => True) hm hA
      (fun _ _ _ _ => trivial) fun u hu => hpub.explicit hu).returns he)

end Covered

section Report

theorem Safe.delFrame_returns (h : Safe env s) : ∃ rep t, delFrame env s = .ok rep t := by
  obtain ⟨hs, hr⟩ := h.opened
  have hw : Wp (delFrame env) (fun _ _ => True) (fun _ _ => False) s := by
    refine Wp.seq h.open_returns ?_
    rintro _ _ rfl
    refine Wp.bind_iff.mpr (Wp.get_iff.mpr (Wp.seq (R := fun _ t => t = s.opened env)
      (Wp.bind_iff.mpr (Wp.get_iff.mpr (Wp.bind_iff.mpr (touch_wp (fun _ => rfl)
        fun hno => hno hr.open)))) ?_))
    rintro _ _ rfl
    exact Wp.seq (hs.close_returns (State.opened_held s)) fun _ _ _ => trivial
  obtain ⟨rep, t, he, -⟩ := hw.eq_ok
  exact ⟨rep, t, he⟩

def Block.leakLine (b : Block) : LeakLine where
  ptr := b.addr
  size := b.size
  type := (allocDesc b.allocator).name
  filename := b.site.filename
  lineno := b.site.lineno

theorem reportLeaks_eq (slots : List Slot) (rep : LeakReport) : reportLeaks env all slots rep =
    ⟨rep.lines ++ ((slots.filter (·.leaks env)).filter (·.reported all)).map Slot.leakLine,
      rep.nonFreedReported + ((slots.filter (·.leaks env)).filter (·.reported all)).length,
      rep.nonFreedTotal + (slots.filter (·.leaks env)).length⟩ := by
  induction slots generalizing rep with
  | nil => simp [reportLeaks]
  | cons sl rest ih =>
    unfold reportLeaks
    by_cases hl : sl.leaks env = true
    · by_cases hr : sl.reported all = true
      · simp [hl, hr, ih, List.append_assoc, Nat.add_assoc, Nat.add_comm 1]
      · simp [hl, hr, ih, Nat.add_assoc, Nat.add_comm 1]
    · simp [hl, ih]

theorem Slot.WellFormed.leaks_iff (h : sl.WellFormed env) (hx : env.explicitInit = false) :
    sl.leaks env = true ↔ sl.IsUser := by
  unfold Slot.leaks Slot.IsUser
  simp only [hx, Bool.not_false, Bool.true_or, Bool.and_true, Bool.and_eq_true, beq_iff_eq,
    bne_iff_ne]
  refine and_congr_right fun hs => not_congr ⟨fun ha => by rw [ha]; rfl, fun ha => ?_⟩
  exact (h.internal hs ha).1

/-- The slots that are reported are those of the blocks. -/
theorem World.Covered.perm (hc : w.Covered) (h : w.Matched env) (hx : env.explicitInit = false) :
    (w.heap.filterMap fun b => w.st.slots[b.slot]?).Perm (w.st.slots.filter (·.leaks env)) := by
  have hp := perm_filter (l := w.st.slots) (p := (·.leaks env)) h.nodup fun i => ?_
  · rwa [List.filterMap_map] at hp
  constructor
  · intro hi
    obtain ⟨b, hb, rfl⟩ := List.mem_map.mp hi
    obtain ⟨sl, hi, hcar⟩ := h.held b hb
    exact ⟨sl, hi, ((h.safe.core.slot hi).leaks_iff hx).mpr hcar.user⟩
  · rintro ⟨sl, hi, hl⟩
    obtain ⟨b, hb, hs⟩ := hc hi (((h.safe.core.slot hi).leaks_iff hx).mp hl)
    exact List.mem_map.mpr ⟨b, hb, hs⟩

theorem World.Matched.leakLines (all : Bool) (h : w.Matched env) (hx : env.explicitInit = false)
    (hsub : heap ⊆ w.heap) :
    (heap.filterMap fun b => w.st.slots[b.slot]?).length = heap.length ∧
      ((heap.filterMap fun b => w.st.slots[b.slot]?).filter (·.reported all)).map Slot.leakLine =
        (heap.filter fun b => all || decide (0 < b.site.lineno)).map Block.leakLine := by
  induction heap with
  | nil => exact ⟨rfl, rfl⟩
  | cons b rest ih =>
    obtain ⟨sl, hi, hcar⟩ := h.held b (hsub List.mem_cons_self)
    obtain ⟨ih₁, ih₂⟩ := ih fun c hc => hsub (List.mem_cons_of_mem _ hc)
    have hline : sl.leakLine = b.leakLine := by
      unfold Slot.leakLine Block.leakLine
      rw [hcar.addr, hcar.size, hcar.allocator, hcar.filename, hcar.lineno hx]
    have hrep : sl.reported all = (all || decide (0 < b.site.lineno)) := by
      rw [Slot.reported, hcar.lineno hx]
    have hcons := List.filterMap_cons_some (f := fun b : Block => w.st.slots[b.slot]?) (l := rest) hi
    rw [hcons, List.filter_cons, List.filter_cons, hrep]
    refine ⟨by rw [List.length_cons, ih₁, List.length_cons], ?_⟩
    split
    · rw [List.map_cons, List.map_cons, hline, ih₂]
    · exact ih₂

/-- The leak report counts the blocks that the program holds, and prints one line for each of them
that was allocated with a line number, or for all if that is asked for. -/
theorem leak_report_exact (hx : env.explicitInit = false) (hcop : settings.copies = [])
    (hset : settings.Proper env) (hw : Run env settings w) : ∃ rep t,
      delFrame env w.st = .ok rep t ∧ rep.nonFreedTotal = w.heap.length ∧
      rep.nonFreedReported = rep.lines.length ∧
      rep.lines.Perm ((w.heap.filter fun b =>
        w.st.cfg.reportAllLeaks || decide (0 < b.site.lineno)).map Block.leakLine) := by
  have hm := Run.matched hset hw
  have hperm := (Run.covered hx hcop hset hw).perm hm hx
  obtain ⟨hlen, hlines⟩ := hm.leakLines w.st.cfg.reportAllLeaks hx (List.Subset.refl _)
  obtain ⟨rep, t, he⟩ : ∃ rep t, delFrame env w.st = .ok rep t := hm.safe.delFrame_returns
  obtain ⟨hrep, -⟩ := delFrame_post.returns he
  rw [reportLeaks_eq, List.nil_append, Nat.zero_add, Nat.zero_add] at hrep
  refine ⟨rep, t, he, ?_, ?_, ?_⟩
  · rw [hrep, ← hperm.length_eq, hlen]
  · rw [hrep, List.length_map]
  · rw [hrep, ← hlines]
    exact ((hperm.filter _).map _).symm

theorem leak_report_exact_sample : ∃ (w : World) (b : Block) (rep : LeakReport) (t : State),
    Run Env.sample (Settings.sample (-1) (-1)) w ∧ b ∈ w.heap ∧ b.size = 100 ∧
    delFrame Env.sample w.st = .ok rep t ∧ rep.nonFreedTotal = w.heap.length ∧
    rep.lines.Perm ((w.heap.filter fun b =>
      w.st.cfg.reportAllLeaks || decide (0 < b.site.lineno)).map Block.leakLine) := by
  obtain ⟨w, hw, ⟨b, hb, hn, -⟩, -⟩ := exists_guarded
  have hrun : Run Env.sample (Settings.sample (-1) (-1)) w := hw.mono _ _ fun _ _ h => h.proper
  obtain ⟨rep, t, he, hlen, -, hp⟩ := leak_report_exact rfl rfl (Settings.sample_proper _ _) hrun
  exact ⟨w, b, rep, t, hrun, hb, hn, he, hlen, hp⟩

end Report

end Duma
