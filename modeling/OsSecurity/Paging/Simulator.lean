import OsSecurity.Lib.Runs
import Mathlib.Algebra.Group.Int.Defs
import Mathlib.Algebra.Group.Nat.Defs

/-!
# The paging simulator (`paging_sim.c`)

`run_fifo` and `run_lru` go through the reference string; the body of either loop is one step on the local variables, and what it
prints about the access is its report. The counters and the clock stay below the length of the reference string, which is an
`int`, so they are numbers here. The summary line, which prints the ratios of the counters, is left out.
-/

namespace OsSecurity.Paging

abbrev maxFrames : Nat := 16

/-- An array of `MAX_FRAMES` ints. -/
structure IntArray where
  ints : List Int
  size : ints.length = maxFrames
  deriving DecidableEq

/-- The loop that sets every int of an array. -/
def IntArray.fill (x : Int) : IntArray := ⟨List.replicate maxFrames x, List.length_replicate⟩

def IntArray.get (a : IntArray) (i : Nat) : Int := a.ints.getD i 0

def IntArray.set (a : IntArray) (i : Nat) (x : Int) : IntArray := ⟨a.ints.set i x, by rw [List.length_set, a.size]⟩

/-- `FrameTable`. -/
structure FrameTable where
  /-- The page in each frame, -1 for none. -/
  frames : IntArray
  numFrames : Nat
  pageFaults : Nat
  pageHits : Nat
  deriving DecidableEq

/-- `address_to_page`: the division truncates toward zero. -/
def addressToPage (address pageSize : Int) : Int := address.tdiv pageSize

/-- The `int` that an operation gives, wrapped into the signed range. -/
def wrapInt (x : Int) : Int := x.bmod (2 ^ 32)

/-- `build_addresses_from_pages`: what it leaves in `out_addresses`, an address in the middle of each page. -/
def buildAddressesFromPages (pagePattern : List Int) (pageSize : Int) : List Int :=
  pagePattern.map (fun page => wrapInt (wrapInt (page * pageSize) + pageSize.tdiv 2))

/-- `find_page`; -1 is `none`. -/
def findPage (ft : FrameTable) (page : Int) : Option Nat := (ft.frames.ints.take ft.numFrames).findIdx? (· == page)

/-- What is printed about an access, the frames as `print_frames` shows them. -/
structure Report where
  address : Int
  page : Int
  hit : Bool
  frames : List Int
  deriving DecidableEq

/-! ## FIFO -/

/-- The local variables of `run_fifo`. -/
structure FifoVars where
  ft : FrameTable
  fifoQueueNext : Nat
  filled : Nat
  deriving DecidableEq

def FifoVars.init (numFrames : Nat) : FifoVars :=
  { ft := { frames := IntArray.fill (-1), numFrames := numFrames, pageFaults := 0, pageHits := 0 }
    fifoQueueNext := 0
    filled := 0 }

/-- The report on an access after it. -/
def FrameTable.report (ft : FrameTable) (address page : Int) (hit : Bool) : Report :=
  { address := address, page := page, hit := hit, frames := ft.frames.ints.take ft.numFrames }

/-- The body of the loop of `run_fifo`. -/
def fifoStep (numFrames : Nat) (pageSize : Int) (s : FifoVars) (address : Int) : FifoVars × Report :=
  let page := addressToPage address pageSize
  match findPage s.ft page with
  | some _ =>
    let ft := { s.ft with pageHits := s.ft.pageHits + 1 }
    ({ s with ft := ft }, ft.report address page true)
  | none =>
    let ft := { s.ft with pageFaults := s.ft.pageFaults + 1 }
    if s.filled < numFrames then
      let ft := { ft with frames := ft.frames.set s.filled page }
      ({ s with ft := ft, filled := s.filled + 1 }, ft.report address page false)
    else
      let ft := { ft with frames := ft.frames.set s.fifoQueueNext page }
      ({ s with ft := ft, fifoQueueNext := (s.fifoQueueNext + 1) % numFrames }, ft.report address page false)

/-- `run_fifo`: the local variables when the loop ends. -/
def runFifo (refs : List Int) (numFrames : Nat) (pageSize : Int) : FifoVars :=
  Runs.final (fifoStep numFrames pageSize) (FifoVars.init numFrames) refs

/-- What `run_fifo` prints about the accesses. -/
def fifoReports (refs : List Int) (numFrames : Nat) (pageSize : Int) : List Report :=
  (Runs.trace (fifoStep numFrames pageSize) (FifoVars.init numFrames) refs).map (·.2)

/-! ## LRU -/

/-- The local variables of `run_lru`. -/
structure LruVars where
  frames : IntArray
  lastUsed : IntArray
  pageFaults : Nat
  pageHits : Nat
  filled : Nat
  clock : Int
  deriving DecidableEq

def LruVars.init : LruVars :=
  { frames := IntArray.fill (-1), lastUsed := IntArray.fill (-1), pageFaults := 0, pageHits := 0, filled := 0, clock := 0 }

/-- The loop over the frames `1`, ..., `numFrames - 1` that looks for the smallest `last_used`. -/
def lruVictim (lastUsed : IntArray) (numFrames : Nat) : Nat :=
  (List.range' 1 (numFrames - 1)).foldl (fun victim f => if lastUsed.get f < lastUsed.get victim then f else victim) 0

/-- The report on an access after it. -/
def LruVars.report (s : LruVars) (numFrames : Nat) (address page : Int) (hit : Bool) : Report :=
  { address := address, page := page, hit := hit, frames := s.frames.ints.take numFrames }

/-- The body of the loop of `run_lru`. -/
def lruStep (numFrames : Nat) (pageSize : Int) (s : LruVars) (address : Int) : LruVars × Report :=
  let page := addressToPage address pageSize
  match (s.frames.ints.take numFrames).findIdx? (· == page) with
  | some idx =>
    let s := { s with pageHits := s.pageHits + 1, lastUsed := s.lastUsed.set idx s.clock }
    ({ s with clock := s.clock + 1 }, s.report numFrames address page true)
  | none =>
    let s := { s with pageFaults := s.pageFaults + 1 }
    if s.filled < numFrames then
      let s := { s with
        frames := s.frames.set s.filled page, lastUsed := s.lastUsed.set s.filled s.clock, filled := s.filled + 1 }
      ({ s with clock := s.clock + 1 }, s.report numFrames address page false)
    else
      let victim := lruVictim s.lastUsed numFrames
      let s := { s with frames := s.frames.set victim page, lastUsed := s.lastUsed.set victim s.clock }
      ({ s with clock := s.clock + 1 }, s.report numFrames address page false)

/-- `run_lru`: the local variables when the loop ends. -/
def runLru (refs : List Int) (numFrames : Nat) (pageSize : Int) : LruVars :=
  Runs.final (lruStep numFrames pageSize) LruVars.init refs

/-- What `run_lru` prints about the accesses. -/
def lruReports (refs : List Int) (numFrames : Nat) (pageSize : Int) : List Report :=
  (Runs.trace (lruStep numFrames pageSize) LruVars.init refs).map (·.2)

end OsSecurity.Paging
