import Duma.Refine.Run
import Duma.Region.Ledger

/-! # Admitted runs

The runs that the properties of the allocator speak of, what every step of such a run keeps, and
the evaluation of runs on a sample platform.
-/

namespace Duma

variable {env : Env} {settings : Settings} {s t : State} {r : Request} {works : Config → Prop}
  {A : World → Call → Prop} {w w' : World} {c : Call} {al us : ℕ}

/-- The alignment of the request is a power of two and its sizes do not wrap. -/
def Request.Proper (env : Env) (s : State) (r : Request) : Prop :=
  r.userSize ≠ 0 → Sizes env (s.alignFor r) r.userSize

/-- The settings allow the requests that an initialisation makes for itself. -/
structure Settings.Passes (env : Env) (settings : Settings) : Prop where
  test : Sizes env (resolveAlignment settings.tls 0 123) 123
  copies : settings.copies ≠ [] → (Word.ofInt settings.tls.alignment).isPowerOfTwo

/-- The initialisations that a call does in this state. -/
def Call.initSettings (s : State) : Call → Option Settings
  | .init settings => if s.initDone then none else some settings
  | _ => none

/-- A call of the program whose request, if it makes one, is proper. -/
structure Call.Proper (env : Env) (s : State) (c : Call) : Prop where
  «public» : c.Public
  request : ∀ r ∈ c.request env (c.start s), r.Proper env (c.start s)
  init : ∀ t ∈ c.initSettings s, t.Passes env

/-- The settings with which the process starts allow the requests that it starts with. -/
def Settings.Proper (env : Env) (settings : Settings) : Prop :=
  env.explicitInit = false → settings.Passes env

/-- The runs of calls with proper requests. -/
abbrev Run (env : Env) (settings : Settings) : World → Prop :=
  Reach env settings fun w c => c.Proper env w.st

theorem Request.Proper.serves (h : r.Proper env s) : s.Serves env (Served env) r := by
  unfold State.Serves State.sizeFor
  by_cases h0 : r.userSize = 0
  · rw [if_pos h0]
    exact .zero h0 rfl
  · rw [if_neg h0]
    exact .pos (h h0) rfl

theorem Settings.Passes.sizes (h : settings.Passes env) (hc : settings.copies ≠ []) {size : ℕ}
    (hn : size < env.taskSize) :
    Sizes env (resolveAlignment settings.tls 0 (size + 1)) (size + 1) := by
  have ht := env.taskSize_le
  have hP := env.pageSize_lt
  have hle : resolveAlignment settings.tls 0 (size + 1) ≤ size + 1 ∧
      (resolveAlignment settings.tls 0 (size + 1)).isPowerOfTwo := by
    rw [resolveAlignment, if_pos rfl]
    dsimp only
    split
    · exact ⟨Word.leadingBit_le _ _, Word.leadingBit_isPowerOfTwo (n := 64) (j := 0) rfl
        (one_dvd _) (by omega) (by omega)⟩
    · next h' => exact ⟨not_lt.mp h', h.copies hc⟩
  exact ⟨hle.2, by omega, by omega⟩

theorem Settings.Passes.serves (h : settings.Passes env) (hr : settings.Asks env r)
    (hs : s.tls = settings.tls) : s.Serves env (Served env) r := by
  refine Request.Proper.serves fun h0 => ?_
  rw [State.alignFor, if_neg h0, hs]
  rcases hr with rfl | ⟨c, hc, size, hn, rfl⟩
  · exact h.test
  · have hsize : Word.add size 1 = size + 1 := by
      have := env.taskSize_le
      exact Word.add_eq (by omega)
    have := h.sizes (List.ne_nil_of_mem hc) hn
    rw [← hsize] at this
    exact this

theorem Call.Proper.serves {c : Call} (h : c.Proper env s) (hr : c.Asks env (c.start s) r) :
    (c.start s).Serves env (Served env) r := by
  rcases hr with hr | ⟨settings, rfl, hi, hr⟩
  · exact (h.request r hr).serves
  · have hi' : s.initDone = false := by
      simp only [Call.start] at hi
      split at hi <;> simp_all
    have hst : (Call.init settings).start s = { s with cfg := settings.cfg, tls := settings.tls } :=
      if_neg (by simp [hi'])
    rw [hst]
    exact (h.init settings (if_neg (by simp [hi']))).serves hr rfl

theorem driven (hb : settings.Proper env) (hw : env.explicitInit = false → works settings.cfg)
    (hf : ∀ cfg n, works cfg → works { cfg with checkFreq := n })
    (hA : ∀ w c, A w c → c.Proper env w.st ∧ works (c.start w.st).cfg) :
    Driven env settings works (Served env) A where
  call w c h := ⟨(hA w c h).1.public, (hA w c h).2, fun _ => (hA w c h).1.serves⟩
  freq := hf
  works := hw
  serves hx _ hr _ hs := (hb hx).serves hr hs

theorem run_driven (hb : settings.Proper env) :
    Driven env settings (fun _ => True) (Served env) fun w c => c.Proper env w.st :=
  driven hb (fun _ => trivial) (fun _ _ _ => trivial) fun _ _ h => ⟨h, trivial⟩

theorem public_driven : Driven env settings (fun _ => True) (fun _ _ _ => True)
    fun _ c => c.Public where
  call _ _ h := ⟨h, trivial, fun _ _ => trivial⟩
  freq _ _ _ := trivial
  works _ := trivial
  serves _ _ _ _ _ := trivial

theorem Reach.tidy (hw : Reach env settings (fun _ c => c.Public) w) : Tidy env w.st := by
  obtain ⟨s₀, hc, ha⟩ := hw.acts public_driven
  exact ha.tidy hc.tidy

theorem Constructed.safe (h : Constructed env s) : Safe env s := ⟨h.core, h.live, h.tidy⟩

/-- A property that holds at the start of a run with proper requests and that every step keeps. -/
theorem Reach.always {I : State → Prop} (hd : Driven env settings works (Served env) A)
    (h₀ : ∀ s, Constructed env s → I s)
    (hI : ∀ s t, Safe env s → I s → Act env works (Served env) s t → I t)
    (h : Reach env settings A w) : Safe env w.st ∧ I w.st := by
  refine h.keeps (I := fun s => Safe env s ∧ I s) hd (fun s hc => ⟨hc.safe, h₀ s hc⟩) ?_
  rintro s t - ⟨hs, hi⟩ ha
  exact ⟨ha.safe (fun _ _ _ => id) hs, hI s t hs hi ha⟩

theorem Run.safe (hb : settings.Proper env) (h : Run env settings w) : Safe env w.st :=
  (h.always (I := fun _ => True) (run_driven hb) (fun _ _ => trivial) fun _ _ _ _ _ => trivial).1

section Evaluate

def runFrom (env : Env) (settings : Settings) (allows : World → Call → Bool) :
    World → List Call → Option World
  | w, [] => some w
  | w, c :: rest =>
    if allows w c then
      match c.exec env settings w.st with
      | .ok ptr s => runFrom env settings allows ⟨w.heapAfter env c ptr s, s⟩ rest
      | .error _ _ => none
    else none

def runAll (env : Env) (settings : Settings) (allows : World → Call → Bool) (calls : List Call) :
    Option World :=
  match boot env settings (State.pristine env) with
  | .ok _ s => runFrom env settings allows ⟨[], s⟩ calls
  | .error _ _ => none

variable {allows : World → Call → Bool} {calls : List Call}

theorem runFrom_reach (hA : ∀ w c, allows w c = true → A w c) (hw : Reach env settings A w)
    (h : runFrom env settings allows w calls = some w') : Reach env settings A w' := by
  induction calls generalizing w with
  | nil => cases h; exact hw
  | cons c rest ih =>
    rw [runFrom] at h
    split at h
    · next ha =>
      split at h
      · next ptr s hr => exact ih (hw.step (hA w c ha) (.intro hr)) h
      · cases h
    · cases h

theorem runAll_reach (hA : ∀ w c, allows w c = true → A w c)
    (h : runAll env settings allows calls = some w) : Reach env settings A w := by
  unfold runAll at h
  split at h
  · next v s hr => exact runFrom_reach hA (.start hr) h
  · cases h

/-- A run that ends in a world with the property `p`. -/
theorem exists_reach {p : World → Bool} (hA : ∀ w c, allows w c = true → A w c)
    (h : (runAll env settings allows calls).any p = true) :
    ∃ w, Reach env settings A w ∧ p w = true := by
  cases hr : runAll env settings allows calls with
  | none => rw [hr] at h; cases h
  | some w => exact ⟨w, runAll_reach hA hr, by rwa [hr] at h⟩

end Evaluate

section Sample

instance : Decidable (Sizes env al us) :=
  decidable_of_iff (2 ^ al.log2 = al ∧ 0 < us ∧ us + al + 2 * env.pageSize < 2 ^ 64)
    ⟨fun h => ⟨⟨al.log2, h.1.symm⟩, h.2.1, h.2.2⟩, fun h => ⟨by
      obtain ⟨k, rfl⟩ := h.pow
      rw [Nat.log2_two_pow], h.size_pos, h.lt⟩⟩

instance : Decidable (r.Proper env s) := inferInstanceAs (Decidable (_ → _))

instance {sl : Slot} : Decidable sl.IsUser := inferInstanceAs (Decidable (_ ∧ _))

instance : Decidable c.Public :=
  match c with
  | .new _ a _ => inferInstanceAs (Decidable (a.type ≠ .internal))
  | .delete _ a _ => inferInstanceAs (Decidable (a.type ≠ .internal))
  | .malloc .. | .calloc .. | .memalign .. | .posixMemalign .. | .valloc .. | .strdup ..
  | .realloc .. | .free .. | .check .. | .checkAll | .mallocUsableSize .. | .delFrame | .write ..
  | .set .. | .init .. => isTrue trivial

instance decidableIsPowerOfTwo {n : ℕ} : Decidable n.isPowerOfTwo :=
  decidable_of_iff (2 ^ n.log2 = n) ⟨fun h => ⟨n.log2, h.symm⟩, fun ⟨k, hk⟩ => by
    rw [hk, Nat.log2_two_pow]⟩

instance {settings : Settings} : Decidable (settings.Passes env) :=
  decidable_of_iff (Sizes env (resolveAlignment settings.tls 0 123) 123 ∧
    (settings.copies ≠ [] → (Word.ofInt settings.tls.alignment).isPowerOfTwo))
    ⟨fun h => ⟨h.1, h.2⟩, fun h => ⟨h.test, h.copies⟩⟩

instance : Decidable (c.Proper env s) :=
  decidable_of_iff (c.Public ∧ (∀ r ∈ c.request env (c.start s), r.Proper env (c.start s)) ∧
    ∀ t ∈ c.initSettings s, t.Passes env)
    ⟨fun h => ⟨h.1, h.2.1, h.2.2⟩, fun h => ⟨h.public, h.request, h.init⟩⟩

/-- A platform with pages of 1 kB whose mappings lie 16 MB apart. -/
def Env.sample : Env where
  pageSize := 1024
  taskSize := 2 ^ 47
  mmap k := some (2 ^ 24 * (k + 1))
  munmap _ := true
  boot := ⟨fun _ => .unmapped⟩
  bootMem _ := 0
  explicitInit := false
  minAlignment := 16
  pageSize_pow := ⟨10, rfl⟩
  pageSize_ge := by decide
  pageSize_lt := by decide
  taskSize_le := by decide
  boot_null := rfl

def Settings.sample (protectFree maxAlloc : ℤ) : Settings where
  cfg := { Config.initial with protectFree, maxAlloc }
  tls := Tls.initial Env.sample
  mapFile := none
  outputFile := none

theorem Settings.sample_proper (protectFree maxAlloc : ℤ) :
    (Settings.sample protectFree maxAlloc).Proper Env.sample := fun _ =>
  ⟨show Sizes Env.sample (resolveAlignment (Tls.initial Env.sample) 0 123) 123 by decide,
    fun h => absurd rfl h⟩

def sampleRun (settings : Settings) (calls : List Call) : Option World :=
  runAll Env.sample settings (fun w c => decide (c.Proper Env.sample w.st)) calls

theorem exists_run (settings : Settings) (calls : List Call) (p : World → Bool)
    (h : (sampleRun settings calls).any p = true) :
    ∃ w, Run Env.sample settings w ∧ p w = true :=
  exists_reach (fun _ _ => of_decide_eq_true) h

/-- A block that is freed, whose slot is evicted at 3 kB, and seven for which the list grows. -/
def busyCalls : List Call :=
  [.malloc 100 Site.unknown, .free 33558416 Site.unknown] ++
    List.replicate 7 (.malloc 100 Site.unknown)

/-- The sample platform, where all mappings but the first `n` are refused. -/
def Env.refusing (n : ℕ) : Env :=
  { Env.sample with mmap := fun k => if k < n then Env.sample.mmap k else none }

theorem exists_refusing (n : ℕ) (settings : Settings) (calls : List Call) (p : World → Bool)
    (h : (runAll (Env.refusing n) settings
      (fun w c => decide (c.Proper (Env.refusing n) w.st)) calls).any p = true) :
    ∃ w, Run (Env.refusing n) settings w ∧ p w = true :=
  exists_reach (fun _ _ => of_decide_eq_true) h

def Call.returns (env : Env) (settings : Settings) (s : State) (c : Call) : Bool :=
  match c.exec env settings s with
  | .ok _ _ => true
  | .error _ _ => false

/-- A run on the sample platform and a call that returns behind it. -/
theorem exists_call (settings : Settings) (calls : List Call) (c : Call) (p : World → Bool)
    (h : (sampleRun settings calls).any (fun w => p w && c.returns Env.sample settings w.st) =
      true) : ∃ w ptr t, Run Env.sample settings w ∧ p w = true ∧
        c.exec Env.sample settings w.st = .ok ptr t := by
  obtain ⟨w, hw, hp⟩ := exists_run settings calls _ h
  obtain ⟨hp, hr⟩ := (Bool.and_eq_true _ _ ▸ hp : _ ∧ _)
  unfold Call.returns at hr
  split at hr
  · next ptr t he => exact ⟨w, ptr, t, hw, hp, he⟩
  · cases hr

def Call.ends (env : Env) (settings : Settings) (s : State) (c : Call) (p : ℕ → State → Bool) :
    Bool :=
  match c.exec env settings s with
  | .ok ptr t => p ptr t
  | .error _ _ => false

theorem exists_outcome (settings : Settings) (calls : List Call) (c : Call)
    (p : World → ℕ → State → Bool) (h : (sampleRun settings calls).any (fun w =>
      c.ends Env.sample settings w.st (p w)) = true) :
    ∃ w ptr t, Run Env.sample settings w ∧ c.exec Env.sample settings w.st = .ok ptr t ∧
      p w ptr t = true := by
  obtain ⟨w, hw, hp⟩ := exists_run settings calls _ h
  unfold Call.ends at hp
  split at hp
  · next ptr t he => exact ⟨w, ptr, t, hw, he, hp⟩
  · cases hp

theorem exists_result (settings : Settings) (calls : List Call) (c : Call) (p : World → ℕ → Bool)
    (h : (sampleRun settings calls).any (fun w =>
      c.ends Env.sample settings w.st fun ptr _ => p w ptr) = true) :
    ∃ w ptr t, Run Env.sample settings w ∧ c.exec Env.sample settings w.st = .ok ptr t ∧
      p w ptr = true :=
  exists_outcome settings calls c (fun w ptr _ => p w ptr) h

def yields {α : Type} (m : M α) (s : State) (q : α → State → Bool) : Bool :=
  match m s with
  | .ok a t => q a t
  | .error _ _ => false

theorem exists_yields {α : Type} {m : M α} {q : α → State → Bool} (h : yields m s q = true) :
    ∃ a t, m s = .ok a t ∧ q a t = true := by
  unfold yields at h
  split at h
  · next a t he => exact ⟨a, t, he, h⟩
  · cases h

end Sample

end Duma
