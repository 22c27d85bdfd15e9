import Duma.Foundation.Numeral
import Duma.Model.Init
import Duma.Model.Print

/-! # The environment

`duma_getenv` is DUMA's own replacement of `getenv`; `duma_getenvvars` reads the settings with it.
A string is taken with its address and its bytes before the terminating zero.
-/

namespace Duma

structure CString where
  address : ℕ
  text : List UInt8
  terminated : (0 : UInt8) ∉ text

/-- The byte at an index, up to the terminating zero. -/
def CString.read (v : CString) (idx : ℕ) : UInt8 := v.text.getD idx 0

def CString.advance (v : CString) (n : ℕ) : CString where
  address := v.address + n
  text := v.text.drop n
  terminated := fun h => v.terminated (List.mem_of_mem_drop h)

section Getenv

variable (varname : List UInt8)

/-- The inner loop of `duma_getenv`; it ends at the terminating zero of `varname` at the latest. -/
def matchName (v : CString) : ℕ → ℕ → ℕ
  | 0, idx => idx
  | fuel + 1, idx =>
    if varname.getD idx 0 ≠ 0 ∧ v.read idx = varname.getD idx 0 then matchName v fuel (idx + 1)
    else idx

/-- The outer loop of `duma_getenv`. -/
def searchEnviron : List CString → Option CString
  | [] => none
  | v :: rest =>
    let idx := matchName varname v varname.length 0
    if 0 < idx ∧ varname.getD idx 0 = 0 ∧ v.read idx = Print.chr '=' then some (v.advance (idx + 1))
    else searchEnviron rest

def dumaGetenv (environ : List CString) : Option CString :=
  if varname.getD 0 0 = 0 then none else searchEnviron varname environ

end Getenv

section Numbers

def isspace (c : UInt8) : Bool := c == 32 || 9 ≤ c && c ≤ 13

def isdigit (c : UInt8) : Bool := 48 ≤ c && c ≤ 57

def unsignedNumber (s : List UInt8) : ℤ :=
  Numeral.value 10 ((s.takeWhile isdigit).map fun c => c.toNat - 48)

def signedNumber : List UInt8 → ℤ
  | 45 :: s => -unsignedNumber s
  | 43 :: s => unsignedNumber s
  | s => unsignedNumber s

/-- `strtol` with base 10: what is out of range is cut off at the limits of a `long`. -/
def strtol (nptr : List UInt8) : ℤ :=
  max (-2 ^ 63) (min (signedNumber (nptr.dropWhile isspace)) (2 ^ 63 - 1))

def atol (nptr : List UInt8) : ℤ := strtol nptr

/-- `atoi` keeps the low 32 bits. -/
def atoi (nptr : List UInt8) : ℤ := (strtol nptr).bmod (2 ^ 32)

end Numbers

section Settings

variable (environ : List CString)

def getInt (varname : String) : Option ℤ :=
  (dumaGetenv (Print.chars varname) environ).map fun string => atoi string.text

def getLong (varname : String) (old : ℤ) : ℤ :=
  match dumaGetenv (Print.chars varname) environ with
  | some string => atol string.text
  | none => old

def getFlag (varname : String) (old : Bool) : Bool :=
  match getInt environ varname with
  | some n => n != 0
  | none => old

/-- An `int` variable whose values have to lie within bounds. -/
def getStrategy (varname : String) (least greatest : ℤ) (old : ℕ) : ℕ :=
  match getInt environ varname with
  | some tmp => if least ≤ tmp ∧ tmp ≤ greatest then tmp.toNat else old
  | none => old

def getAlignment (old : ℤ) : ℤ :=
  match getInt environ "DUMA_ALIGNMENT" with
  | some n => if n = 0 then 1 else n
  | none => old

def getFill (old : ℤ) : ℤ :=
  match getInt environ "DUMA_FILL" with
  | some n => if n ≠ -1 then n % 256 else n
  | none => old

def getSlackfill (old : UInt8) : UInt8 :=
  match getInt environ "DUMA_SLACKFILL" with
  | some n => UInt8.ofInt n
  | none => old

def getCheckFreq (old : ℤ) : ℤ :=
  match getInt environ "DUMA_CHECK_FREQ" with
  | some tmp => if 0 < tmp then tmp else old
  | none => old

/-- What `duma_getenvvars` makes of the variables and of the settings before. -/
def getenvvars (cfg : Config) (tls : Tls) : Settings where
  tls :=
    { alignment := getAlignment environ tls.alignment
      protectBelow := getFlag environ "DUMA_PROTECT_BELOW" tls.protectBelow
      fill := getFill environ tls.fill }
  cfg :=
    { reportAllLeaks := getFlag environ "DUMA_REPORT_ALL_LEAKS" cfg.reportAllLeaks
      protectFree := getLong environ "DUMA_PROTECT_FREE" cfg.protectFree
      maxAlloc := getLong environ "DUMA_MAX_ALLOC" cfg.maxAlloc
      malloc0Strategy := getStrategy environ "MALLOC_0_STRATEGY" 0 3 cfg.malloc0Strategy
      new0Strategy := getStrategy environ "NEW_0_STRATEGY" 2 3 cfg.new0Strategy
      mallocFailexit := getFlag environ "DUMA_MALLOC_FAILEXIT" cfg.mallocFailexit
      freeAccess := getFlag environ "DUMA_FREE_ACCESS" cfg.freeAccess
      slackfill := getSlackfill environ cfg.slackfill
      memcpyOverlap := getFlag environ "DUMA_MEMCPY_OVERLAP" cfg.memcpyOverlap
      checkFreq := getCheckFreq environ cfg.checkFreq }
  mapFile :=
    (dumaGetenv (Print.chars "DUMA_OUTPUT_STACKTRACE_MAPFILE") environ).map CString.address
  outputFile := (dumaGetenv (Print.chars "DUMA_OUTPUT_FILE") environ).map CString.address

end Settings

end Duma
