import WeaveC.Library.Code
import Mathlib.Data.List.FinRange

/-!
# What the runtime's functions do to locks

Every function of the runtime that takes a lock, with the thread cache's
counters, its arrays and the worker protocol.  What a slot word, a list, a size
or the system decides is a free choice; a test of the calling thread's own
cache is an action.
-/

namespace WeaveC.Locks

open WeaveC.Library

def WeavecRtRegionCount : Nat := 160

abbrev Region := Fin WeavecRtRegionCount

inductive Lock where
  | sweepLock
  | cacheListLock
  | initLock
  | spareLock
  /-- `regionState[region].lock` -/
  | regionLock (region : Region)
  | hugeLock
  | internalLock
  | workLock
deriving DecidableEq

/-- What a call asks of the arena and of its thread's cache. -/
inductive Query where
  /-- `__weavec_rt_heap.bytes != 0` -/
  | reserved
  /-- `ownCache() != NULL` -/
  | cached
  /-- The key's value is NULL: neither a cache nor `CacheGone`. -/
  | unmade
  /-- `depth != 0 && locks != 0` -/
  | busy
  /-- `depth > 1` -/
  | nested
  /-- `depth != 0` -/
  | inside
  /-- `deferredCount != 0` -/
  | pending
  /-- `deferredCount` is below the array's size. -/
  | room
deriving DecidableEq

/-- The block a release is about: the call's own argument, or one taken from
the deferred releases. -/
inductive Pointer where
  | argument
  | deferred
deriving DecidableEq

inductive Action where
  /-- `weavecRtLock` and `pthread_mutex_lock` -/
  | lock (l : Lock)
  /-- `trySweepLock`, where it succeeds -/
  | tryLock (l : Lock)
  | unlock (l : Lock)
  | query (q : Query) (answer : Bool)
  /-- The store of `__weavec_rt_heap.bytes` -/
  | storeBytes
  | locksUp
  | locksDown
  | depthUp
  | depthDown
  /-- `pthread_setspecific` of a new cache -/
  | setCache
  /-- `pthread_setspecific` of `CacheGone` -/
  | setGone
  /-- The thread's cache arrays are read or changed from here on … -/
  | openArrays
  /-- … to here. -/
  | closeArrays
  /-- `deferred[deferredCount++] = p` -/
  | defer (p : Pointer)
  /-- The load of `--deferredCount`, … -/
  | loadCount
  /-- … its store, … -/
  | storeCount
  /-- … and the load of `deferred[deferredCount]`. -/
  | loadDeferred
  /-- The access by which a release takes effect: `claim`'s exchange, the huge
  block's `dead`, or the C library's `free`. -/
  | release (p : Pointer)
  /-- `pthread_sigmask` of every signal, and back -/
  | blockSignals
  | restoreSignals
  /-- `stopping` is set: a thread sent the signal may stop from here on. -/
  | stopThreads
  | resumeThreads
  /-- `pthread_create` of a worker -/
  | createWorker
  /-- The spin until the worker's thread id is there -/
  | awaitWorker
  | storeThreadId
  /-- `++workRound`, for `workGo`'s waiters -/
  | startRound
  /-- Asleep in `pthread_cond_wait` on `workGo` -/
  | awaitGo
  | seeRound
  /-- `++workersFinished` -/
  | finishRound
  /-- Asleep in `pthread_cond_wait` on `workDone` -/
  | awaitDone
  /-- `fork` returns in the child: the other threads are not there. -/
  | enterChild
  /-- `weavecRtSweepForkChild` -/
  | initWorkLock
deriving DecidableEq

/-- The functions that call themselves, or never return. -/
inductive Procedure where
  | free (p : Pointer)
  | markRounds
deriving DecidableEq

abbrev Program := Code Region Procedure Action

namespace Program

def maybe (c : Program) : Program := .either c .skip

/-- `if (q) c else d` -/
def branch (q : Query) (c d : Program) : Program :=
  .either (.list [.act (.query q true), c]) (.list [.act (.query q false), d])

def onlyIf (q : Query) (c : Program) : Program := branch q c .skip

end Program

open Program

/-! ## Locks -/

def weavecRtLock (l : Lock) : Program := .act (.lock l)
def weavecRtUnlock (l : Lock) : Program := .act (.unlock l)

def take (l : Lock) : Program := .list [onlyIf .cached (.act .locksUp), weavecRtLock l]

def give (l : Lock) : Program :=
  branch .cached (.list [weavecRtUnlock l, .act .locksDown]) (weavecRtUnlock l)

def weavecRtInternal : Program :=
  .list [weavecRtLock .internalLock, weavecRtUnlock .internalLock]

def weavecRtInternalDrop : Program :=
  .list [weavecRtLock .internalLock, weavecRtUnlock .internalLock]

def weavecRtLockAll : Program :=
  .list [weavecRtLock .initLock, weavecRtLock .spareLock,
    .list ((List.finRange WeavecRtRegionCount).map fun i => weavecRtLock (.regionLock i)),
    weavecRtLock .hugeLock]

def weavecRtUnlockAll : Program :=
  .list [weavecRtUnlock .hugeLock,
    .list ((List.finRange WeavecRtRegionCount).reverse.map fun i => weavecRtUnlock (.regionLock i)),
    weavecRtUnlock .spareLock, weavecRtUnlock .initLock]

/-! ## The arena -/

def reserveShadow : Program := maybe weavecRtInternal

def reserve : Program := maybe (.list [weavecRtInternal, maybe (.act .storeBytes)])

def weavecRtInitialize : Program :=
  branch .reserved .skip
    (.list [weavecRtLock .initLock, maybe (.list [reserveShadow, reserve, maybe reserve]),
      weavecRtUnlock .initLock])

/-! ## The caches and the sweep -/

def popRegion (region : Region) : Program :=
  .list [take (.regionLock region), give (.regionLock region)]

def takeSpare : Program := .list [take .spareLock, give .spareLock]

/-- A region's lock is held across a run of its slots. -/
def flushReleases : Program :=
  .list [.act .openArrays,
    .loop (.any fun region => .list [take (.regionLock region), give (.regionLock region)]),
    .act .closeArrays]

def returnSlots : Program :=
  .list [.act .openArrays,
    .loop (.any fun region => .list [take (.regionLock region), give (.regionLock region)]),
    .act .closeArrays]

def drainCache : Program := .loop (.list [flushReleases, returnSlots])

def weavecRtFlushThread : Program := onlyIf .cached drainCache

def dropCache : Program :=
  .list [.act .setGone, maybe (.list [drainCache, take .cacheListLock, give .cacheListLock])]

def mapWorld : Program := maybe (.list [weavecRtInternal, maybe weavecRtInternal])

def startWorkers : Program :=
  .loop (.list [maybe weavecRtInternal, maybe (.list [.act .createWorker, .act .awaitWorker])])

def weavecRtPrepareMarks : Program := .loop weavecRtInternal

def readMaps : Program := .loop (.list [weavecRtInternal, maybe weavecRtInternalDrop])

def scanMappings : Program := readMaps

/-- `pthread_cond_wait` drops the mutex while it sleeps, and takes it again. -/
def runWork : Program :=
  .list [weavecRtLock .workLock, .act .startRound, weavecRtUnlock .workLock,
    weavecRtLock .workLock,
    .loop (.list [weavecRtUnlock .workLock, .act .awaitDone, weavecRtLock .workLock]),
    weavecRtUnlock .workLock]

def markWorker : Program :=
  .list [.act .storeThreadId, weavecRtLock .workLock, .call .markRounds]

/-- The rounds of `markWorker`, for ever. -/
def markRounds : Program :=
  .list [.loop (.list [weavecRtUnlock .workLock, .act .awaitGo, weavecRtLock .workLock]),
    .act .seeRound, weavecRtUnlock .workLock, weavecRtLock .workLock, .act .finishRound,
    .call .markRounds]

/-- From the first stop to the last: `lockImages` does nothing on Linux. -/
def stopTheWorld : Program :=
  .list [weavecRtLockAll, .act .stopThreads,
    maybe (.list [weavecRtPrepareMarks,
      maybe (.list [scanMappings, maybe runWork])]),
    .act .resumeThreads, weavecRtUnlockAll]

def weavecRtSweep : Program :=
  branch .nested .skip
    (.list [weavecRtFlushThread,
      maybe (.list [.act (.tryLock .sweepLock), mapWorld,
        maybe (.list [.act .blockSignals, maybe startWorkers, stopTheWorld,
          .act .restoreSignals]),
        weavecRtUnlock .sweepLock])])

/-- Each region of the class, a sweep, a spare, until there is a slot or no
memory. -/
def popClass : Program :=
  .loop (.list [.loop (.any popRegion), maybe weavecRtSweep, maybe takeSpare])

/-- With the thread's cache, made when it has none and never had one, or
without. -/
def threadCache (cache none : Program) : Program :=
  branch .cached cache
    (branch .unmade
      (.either (.list [.act .setCache, take .cacheListLock, give .cacheListLock, cache]) none)
      none)

/-- With the cache of a call that is its thread's only one, or without. -/
def cacheFor (cache none : Program) : Program :=
  .either (threadCache (branch .nested none cache) none) none

def takeSlot : Program := popClass

def cachedAlloc : Program := .list [.act .openArrays, maybe popClass, .act .closeArrays]

def retire : Program := .list [.any popRegion, maybe weavecRtSweep]

def cachedRelease : Program :=
  .list [.act .openArrays, .act .closeArrays, maybe (.list [flushReleases, maybe weavecRtSweep])]

/-! ## Huge blocks -/

def hugeAlloc : Program :=
  maybe (.list [take .hugeLock,
    .either (give .hugeLock)
      (.list [maybe (.list [weavecRtInternal, maybe weavecRtInternalDrop]), give .hugeLock])])

def hugeFind : Program := maybe (.list [take .hugeLock, give .hugeLock])

/-- `hugeFree` of a live block's start, … -/
def hugeFree (p : Pointer) : Program :=
  .list [take .hugeLock, .act (.release p), give .hugeLock]

/-- … and of any other address. -/
def hugeFreeNone : Program := maybe (.list [take .hugeLock, give .hugeLock])

/-! ## The entry points -/

def allocate : Program :=
  .list [weavecRtInitialize,
    maybe (.list [maybe (cacheFor cachedAlloc takeSlot), maybe hugeAlloc])]

/-- A fatal report ends the process. -/
def release (p : Pointer) : Program :=
  .either
    (maybe (.list [.act (.release p), cacheFor cachedRelease retire]))
    (.either (.list [hugeFree p, maybe weavecRtSweep])
      (.list [hugeFreeNone, hugeFind, maybe (.act (.release p))]))

/-- `while (deferredCount != 0) __weavec_rt_free(deferred[--deferredCount]);` -/
def drainDeferred : Program :=
  .list [.loop (.list [.act (.query .pending true), .act .loadCount, .act .storeCount,
      .act .loadDeferred, .call (.free .deferred)]),
    .act (.query .pending false)]

/-- An entry's work with the thread's calls counted. -/
def counted (work : Program) : Program :=
  .list [.act .depthUp, work, .act .depthDown, branch .inside .skip drainDeferred]

def weavecRtAlloc : Program :=
  branch .cached (branch .busy .skip (counted allocate)) allocate

def weavecRtFree (p : Pointer) : Program :=
  branch .cached (branch .busy (onlyIf .room (.act (.defer p))) (counted (release p))) (release p)

def Procedure.body : Procedure → Program
  | .free p => weavecRtFree p
  | .markRounds => Locks.markRounds

/-- In place there is no lock; elsewhere the block may be a huge one, or the
C library's. -/
def weavecRtRealloc : Program :=
  .either weavecRtAlloc
    (.list [maybe hugeFind,
      .either (maybe (.list [hugeFind, maybe (.act (.release .argument))]))
        (.list [weavecRtAlloc, maybe (.call (.free .argument))])])

def weavecRtSize : Program := .list [maybe hugeFind, maybe hugeFind]

def weavecRtHeapObjectAt : Program := hugeFind

/-! ## fork -/

def forkPrepare : Program :=
  .list [weavecRtLock .sweepLock, weavecRtLock .cacheListLock, weavecRtLockAll]

def forkParent : Program :=
  .list [weavecRtUnlockAll, weavecRtUnlock .cacheListLock, weavecRtUnlock .sweepLock]

def forkChild : Program :=
  .list [weavecRtUnlockAll, .loop drainCache, weavecRtUnlock .cacheListLock,
    .act .initWorkLock, weavecRtUnlock .sweepLock]

/-- `fork` with its handlers, in the process that goes on being looked at. -/
def forkProcess : Program :=
  .list [forkPrepare, .either forkParent (.list [.act .enterChild, forkChild])]

/-- How a thread enters the runtime. -/
inductive Entry where
  | alloc
  | free
  | realloc
  | size
  | heapObjectAt
  | initializeEarly
  | dropCache
  | fork
deriving DecidableEq

def Entry.program : Entry → Program
  | .alloc => weavecRtAlloc
  | .free => maybe (.call (.free .argument))
  | .realloc => weavecRtRealloc
  | .size => weavecRtSize
  | .heapObjectAt => weavecRtHeapObjectAt
  | .initializeEarly => weavecRtInitialize
  | .dropCache => Locks.dropCache
  | .fork => forkProcess

end WeaveC.Locks
