import WeaveC.Locks.Nesting

/-!
# Deferred releases

A call releases its argument once or leaves it to the deferred releases; each
block it takes out of them it releases once or puts back.
-/

namespace WeaveC.Locks

open WeaveC.Library Program
open Code.Checks (nil cons single own)

namespace Token

def Has (t : Token) : Pointer → Prop
  | .argument => t.argument = true
  | .deferred => t.deferred = true

/-- Without the block. -/
def spend (t : Token) : Pointer → Token
  | .argument => { t with argument := false }
  | .deferred => { t with deferred := false }

def Allowed (t : Token) : Action → Prop
  | .release p => t.Has p ∧ t.window = .shut
  | .defer p => t.Has p ∧ t.window = .room
  | .query .pending _ | .query .room _ | .setCache => t.window = .shut
  | .loadCount => t.window = .pending
  | .storeCount => t.window = .loaded
  | .loadDeferred => t.window = .stored
  | _ => True

/-- The first may do what the second may. -/
def Covers (t t' : Token) : Prop :=
  (t'.argument = true → t.argument = true) ∧ (t'.deferred = true → t.deferred = true) ∧
    t.window = t'.window

theorem Covers.has {t t' : Token} (covers : t.Covers t') {p : Pointer} (has : t'.Has p) :
    t.Has p := by
  cases p with
  | argument => exact covers.1 has
  | deferred => exact covers.2.1 has

theorem Covers.allowed {t t' : Token} {a : Action} (covers : t.Covers t')
    (allowed : t'.Allowed a) : t.Allowed a := by
  have window := covers.2.2
  cases a with
  | release p => exact ⟨covers.has allowed.1, window.trans allowed.2⟩
  | defer p => exact ⟨covers.has allowed.1, window.trans allowed.2⟩
  | query q b =>
    cases q with
    | pending | room => exact window.trans allowed
    | reserved | cached | unmade | busy | nested | inside => trivial
  | setCache | loadCount | storeCount | loadDeferred => exact window.trans allowed
  | _ => trivial

theorem Covers.after {t t' : Token} (a : Action) (covers : t.Covers t') :
    (t.after a).Covers (t'.after a) := by
  obtain ⟨argument, deferred, window⟩ := covers
  cases a with
  | release p =>
    cases p with
    | argument => exact ⟨nofun, deferred, window⟩
    | deferred => exact ⟨argument, nofun, window⟩
  | defer p =>
    cases p with
    | argument => exact ⟨nofun, deferred, rfl⟩
    | deferred => exact ⟨argument, nofun, rfl⟩
  | query q b =>
    cases q with
    | pending | room =>
      cases b with
      | true => exact ⟨argument, deferred, rfl⟩
      | false => exact ⟨argument, deferred, window⟩
    | reserved | cached | unmade | busy | nested | inside => exact ⟨argument, deferred, window⟩
  | loadCount | storeCount => exact ⟨argument, deferred, rfl⟩
  | loadDeferred => exact ⟨argument, fun _ => rfl, rfl⟩
  | _ => exact ⟨argument, deferred, window⟩

def discipline : Discipline Token Action where
  Allowed := Allowed
  after := after
  Dead _ := False
  Covers := Covers
  refl _ := ⟨id, id, rfl⟩
  trans first second :=
    ⟨first.1 ∘ second.1, first.2.1 ∘ second.2.1, first.2.2.trans second.2.2⟩
  allowed := Covers.allowed
  after_covers := Covers.after
  dead _ := id

/-- With nothing taken out of the deferred releases. -/
def settled (argument : Bool) : Token := ⟨argument, false, .shut⟩

def spec : Procedure → Token → Token → Prop
  | .free p, t, t' => t.Has p ∧ t.window = .shut ∧ t' = settled (t.spend p).argument
  | .markRounds, _, _ => False

end Token

def Spends (t : Token) (c : Program) (t' : Token) : Prop :=
  Code.Checks Token.discipline Token.spec t c t'

namespace Spends

variable {t t' : Token} {c d : Program} {p : Pointer}

theorem act {a : Action} (allowed : t.Allowed a) : Spends t (.act a) (t.after a) :=
  Code.Checks.act (D := Token.discipline) allowed

/-- An action that is not about releases. -/
def Silent : Action → Prop
  | .release _ | .defer _ | .query .pending _ | .query .room _ | .loadCount | .storeCount
  | .loadDeferred => False
  | _ => True

theorem of_every (shut : t.window = .shut) (silent : c.Every Silent) : Spends t c t := by
  induction c with
  | skip => exact .skip
  | act a =>
    cases a with
    | release | defer | loadCount | storeCount | loadDeferred => exact silent.elim
    | query q b =>
      cases q with
      | pending | room => exact silent.elim
      | reserved | cached | unmade | busy | nested | inside => exact own trivial rfl
    | setCache => exact own shut rfl
    | _ => exact own trivial rfl
  | seq c d first second => exact .seq (first silent.1) (second silent.2)
  | either c d left right => exact .either (left silent.1) (right silent.2)
  | any c each => exact .any fun i => each i (silent i)
  | loop c round => exact .loop (round silent)
  | call f => exact silent.elim

theorem branch {q : Query} (silent : Silent (.query q true)) (shut : t.window = .shut)
    (yes : Spends t c t') (no : Spends t d t') : Spends t (branch q c d) t' := by
  have asked (b : Bool) : Spends t (.act (.query q b)) t := by
    refine of_every shut ?_
    cases q with
    | pending | room => exact silent
    | reserved | cached | unmade | busy | nested | inside => trivial
  exact .either (cons (asked true) (single yes)) (cons (asked false) (single no))

end Spends

open Spends

theorem Spends.Silent.of_mute {a : Action} (mute : Nests.Mute a) : Silent a := by
  cases a with
  | lock | unlock | stopThreads | resumeThreads | createWorker | awaitWorker | startRound
  | awaitDone => trivial
  | _ => exact mute.elim

/-! ### What is not about releases -/

theorem silent_take (l : Lock) : (take l).Every Silent :=
  ⟨⟨⟨trivial, trivial, trivial⟩, ⟨trivial, trivial, trivial⟩⟩, trivial, trivial⟩

theorem silent_give (l : Lock) : (give l).Every Silent :=
  ⟨⟨trivial, ⟨trivial, trivial, trivial⟩, trivial⟩, ⟨trivial, trivial, trivial⟩⟩

theorem silent_popRegion (region : Region) : (popRegion region).Every Silent :=
  ⟨silent_take _, silent_give _, trivial⟩

theorem silent_flushReleases : flushReleases.Every Silent :=
  ⟨trivial, silent_popRegion, trivial, trivial⟩

theorem silent_drainCache : drainCache.Every Silent :=
  ⟨silent_flushReleases, silent_flushReleases, trivial⟩

theorem silent_internal : weavecRtInternal.Every Silent := ⟨trivial, trivial, trivial⟩

theorem silent_stopTheWorld : stopTheWorld.Every Silent :=
  every_stopTheWorld.mono fun _ => Silent.of_mute

theorem silent_startWorkers : startWorkers.Every Silent :=
  every_startWorkers.mono fun _ => Silent.of_mute

theorem silent_weavecRtSweep : weavecRtSweep.Every Silent :=
  ⟨⟨trivial, trivial, trivial⟩, trivial,
    ⟨⟨⟨trivial, silent_drainCache, trivial⟩, trivial, trivial, trivial⟩,
      ⟨⟨trivial, ⟨⟨silent_internal, ⟨silent_internal, trivial⟩, trivial⟩, trivial⟩,
        ⟨⟨trivial, ⟨silent_startWorkers, trivial⟩, silent_stopTheWorld, trivial, trivial⟩, trivial⟩,
        trivial, trivial⟩, trivial⟩, trivial⟩, trivial⟩

theorem silent_popClass : popClass.Every Silent :=
  ⟨silent_popRegion, ⟨silent_weavecRtSweep, trivial⟩,
    ⟨⟨silent_take _, silent_give _, trivial⟩, trivial⟩, trivial⟩

theorem silent_cacheFor {cache none : Program} (with_cache : cache.Every Silent)
    (without : none.Every Silent) : (cacheFor cache none).Every Silent := by
  have outermost : (Program.branch .nested none cache).Every Silent :=
    ⟨⟨trivial, without, trivial⟩, trivial, with_cache, trivial⟩
  exact ⟨⟨⟨trivial, outermost, trivial⟩, trivial,
    ⟨⟨trivial, ⟨⟨trivial, silent_take _, silent_give _, outermost, trivial⟩, without⟩, trivial⟩,
      trivial, without, trivial⟩, trivial⟩, without⟩

theorem silent_hugeFind : hugeFind.Every Silent :=
  ⟨⟨silent_take _, silent_give _, trivial⟩, trivial⟩

theorem silent_weavecRtInitialize : weavecRtInitialize.Every Silent := by
  have reserved : reserve.Every Silent :=
    ⟨⟨silent_internal, ⟨trivial, trivial⟩, trivial⟩, trivial⟩
  exact ⟨⟨trivial, trivial, trivial⟩, trivial,
    ⟨trivial, ⟨⟨⟨silent_internal, trivial⟩, reserved, ⟨reserved, trivial⟩, trivial⟩, trivial⟩,
      trivial, trivial⟩, trivial⟩

theorem silent_hugeAlloc : hugeAlloc.Every Silent := by
  have recorded : (Program.maybe (.list [weavecRtInternal,
      Program.maybe weavecRtInternalDrop])).Every Silent :=
    ⟨⟨silent_internal, ⟨silent_internal, trivial⟩, trivial⟩, trivial⟩
  exact ⟨⟨silent_take _, ⟨silent_give _, recorded, silent_give _, trivial⟩, trivial⟩, trivial⟩

theorem silent_allocate : allocate.Every Silent := by
  have cached : cachedAlloc.Every Silent := ⟨trivial, ⟨silent_popClass, trivial⟩, trivial, trivial⟩
  exact ⟨silent_weavecRtInitialize,
    ⟨⟨⟨silent_cacheFor cached silent_popClass, trivial⟩, ⟨silent_hugeAlloc, trivial⟩, trivial⟩,
      trivial⟩, trivial⟩

theorem silent_dropCache : dropCache.Every Silent :=
  ⟨trivial, ⟨⟨silent_drainCache, silent_take _, silent_give _, trivial⟩, trivial⟩, trivial⟩

/-! ### What is -/

theorem spends_release {t : Token} {p : Pointer} (has : t.Has p) (shut : t.window = .shut) :
    Spends t (release p) (t.spend p) := by
  have weaker : Token.discipline.Covers t (t.spend p) := by
    cases p with
    | argument => exact ⟨nofun, id, rfl⟩
    | deferred => exact ⟨id, nofun, rfl⟩
  have still : (t.spend p).window = .shut := by
    cases p with
    | argument => exact shut
    | deferred => exact shut
  have released : Spends t (.act (.release p)) (t.spend p) := by
    cases p with
    | argument => exact act ⟨has, shut⟩
    | deferred => exact act ⟨has, shut⟩
  have kept : Spends t .skip (t.spend p) := .weaken weaker .skip (Token.discipline.refl _)
  have cached : cachedRelease.Every Silent :=
    ⟨trivial, trivial, ⟨⟨silent_flushReleases, ⟨silent_weavecRtSweep, trivial⟩, trivial⟩, trivial⟩,
      trivial⟩
  have retired : retire.Every Silent :=
    ⟨silent_popRegion, ⟨silent_weavecRtSweep, trivial⟩, trivial⟩
  have arena : Spends t (.list [.act (.release p), cacheFor cachedRelease retire]) (t.spend p) :=
    cons released (single (of_every still (silent_cacheFor cached retired)))
  have huge : Spends t (.list [hugeFree p, Program.maybe weavecRtSweep]) (t.spend p) := by
    refine cons (cons (of_every shut (silent_take _)) (cons released
      (single (of_every still (silent_give _))))) (single ?_)
    exact of_every still ⟨silent_weavecRtSweep, trivial⟩
  have other : Spends t (.list [hugeFreeNone, hugeFind, Program.maybe (.act (.release p))])
      (t.spend p) :=
    cons (of_every shut silent_hugeFind) (cons (of_every shut silent_hugeFind)
      (single (.either released kept)))
  exact .either (.either arena kept) (.either huge other)

theorem settled_covers {t : Token} (shut : t.window = .shut) :
    Token.discipline.Covers t (.settled t.argument) :=
  ⟨id, nofun, shut⟩

theorem spends_drainDeferred {argument : Bool} :
    Spends (.settled argument) drainDeferred (.settled argument) := by
  have asked : Spends (.settled argument) (.act (.query .pending true))
      ⟨argument, false, .pending⟩ := act rfl
  have counted : Spends ⟨argument, false, .pending⟩ (.act .loadCount) ⟨argument, false, .loaded⟩ :=
    act rfl
  have stored : Spends ⟨argument, false, .loaded⟩ (.act .storeCount) ⟨argument, false, .stored⟩ :=
    act rfl
  have taken : Spends ⟨argument, false, .stored⟩ (.act .loadDeferred) ⟨argument, true, .shut⟩ :=
    act rfl
  have freed : Spends ⟨argument, true, .shut⟩ (.call (.free .deferred)) (.settled argument) :=
    .call ⟨rfl, rfl, rfl⟩
  have none : Spends (.settled argument) (.act (.query .pending false)) (.settled argument) :=
    act rfl
  exact cons (.loop (cons asked (cons counted (cons stored (cons taken (single freed))))))
    (single none)

theorem spends_counted {t t' : Token} {work : Program} (shut : t.window = .shut)
    (spends : Spends t work t') (shut' : t'.window = .shut) :
    Spends t (counted work) (.settled t'.argument) := by
  have settle : Spends t' (.act .depthDown) (.settled t'.argument) :=
    .weaken (settled_covers shut') (of_every rfl trivial) (Token.discipline.refl _)
  exact cons (of_every shut trivial) (cons spends (cons settle
    (single (branch trivial rfl .skip spends_drainDeferred))))

theorem spends_weavecRtAlloc {t : Token} (shut : t.window = .shut) :
    Spends t weavecRtAlloc (.settled t.argument) := by
  have settle {c : Program} (spends : Spends t c t) : Spends t c (.settled t.argument) :=
    .weaken (Token.discipline.refl _) spends (settled_covers shut)
  have allocated : Spends t allocate t := of_every shut silent_allocate
  exact branch trivial shut
    (branch trivial shut (settle .skip) (spends_counted shut allocated shut)) (settle allocated)

theorem spends_weavecRtFree {t : Token} {p : Pointer} (has : t.Has p) (shut : t.window = .shut) :
    Spends t (weavecRtFree p) (.settled (t.spend p).argument) := by
  have still : (t.spend p).window = .shut := by
    cases p with
    | argument => exact shut
    | deferred => exact shut
  have settle : Token.discipline.Covers (t.spend p) (.settled (t.spend p).argument) :=
    settled_covers still
  have weaker : Token.discipline.Covers t (t.spend p) := by
    cases p with
    | argument => exact ⟨nofun, id, rfl⟩
    | deferred => exact ⟨id, nofun, rfl⟩
  have roomy : Spends t (.act (.query .room true)) { t with window := .room } := act shut
  have deferred : Spends { t with window := .room } (.act (.defer p)) (t.spend p) := by
    cases p with
    | argument =>
      have done : Spends { t with window := .room } (.act (.defer .argument))
          ⟨false, t.deferred, .shut⟩ := act ⟨has, rfl⟩
      rw [← shut] at done
      exact done
    | deferred =>
      have done : Spends { t with window := .room } (.act (.defer .deferred))
          ⟨t.argument, false, .shut⟩ := act ⟨has, rfl⟩
      rw [← shut] at done
      exact done
  have full : Spends t (.act (.query .room false)) t := act shut
  have put : Spends t (onlyIf .room (.act (.defer p))) (t.spend p) :=
    .either (cons roomy (single deferred))
      (cons full (single (.weaken weaker .skip (Token.discipline.refl _))))
  have released := spends_release has shut
  exact branch trivial shut
    (branch trivial shut (.weaken (Token.discipline.refl _) put settle)
      (spends_counted shut released still))
    (.weaken (Token.discipline.refl _) released settle)

theorem spends_body (f : Procedure) (t t' : Token) (meets : Token.spec f t t') :
    Spends t f.body t' := by
  cases f with
  | free p =>
    obtain ⟨has, shut, rfl⟩ := meets
    exact spends_weavecRtFree has shut
  | markRounds => exact meets.elim

/-- Where a call begins: with its argument to release. -/
def Token.fresh : Token := ⟨true, false, .shut⟩

theorem spends_entry {e : Entry} (entered : Nest.Allocator e ∨ e = .dropCache) :
    ∃ t, Spends Token.fresh e.program t := by
  have found : Spends Token.fresh (Program.maybe hugeFind) Token.fresh :=
    of_every rfl ⟨silent_hugeFind, trivial⟩
  have weaker : Token.discipline.Covers Token.fresh (.settled false) := ⟨nofun, nofun, rfl⟩
  have kept : Spends Token.fresh .skip (.settled false) :=
    .weaken weaker .skip (Token.discipline.refl _)
  have freed : Spends Token.fresh (.call (.free .argument)) (.settled false) := .call ⟨rfl, rfl, rfl⟩
  rcases entered with (rfl | rfl | rfl | rfl) | rfl
  · exact ⟨_, spends_weavecRtAlloc rfl⟩
  · exact ⟨_, .either freed kept⟩
  · refine ⟨.settled false, .either ?_ (cons found (single (.either ?_ ?_)))⟩
    · exact .weaken (Token.discipline.refl _) (spends_weavecRtAlloc rfl) ⟨nofun, nofun, rfl⟩
    · have released : Spends Token.fresh (.act (.release .argument)) (.settled false) :=
        act ⟨rfl, rfl⟩
      exact .either (cons (of_every rfl silent_hugeFind) (single (.either released kept))) kept
    · have allocated : Spends Token.fresh weavecRtAlloc Token.fresh := spends_weavecRtAlloc rfl
      exact cons allocated (single (.either freed kept))
  · exact ⟨_, cons found (single found)⟩
  · exact ⟨_, of_every rfl silent_dropCache⟩

end WeaveC.Locks
