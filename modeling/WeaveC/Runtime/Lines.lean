import WeaveC.Runtime.Guard
import WeaveC.Runtime.Report
import Mathlib.Data.List.Basic

/-!
# The lines of a report

The runtime formats its own lines, each into a buffer of its own that never
overflows: what does not fit is left out, and the newline always fits.
-/

namespace WeaveC.Runtime

/-! ## A line being written -/

/-- The bytes of a text of the runtime's own. -/
def ascii (text : String) : List UInt8 := text.toList.map fun c => UInt8.ofNat c.toNat

/-- `struct Line`: `room` bytes, the newline's place kept apart. -/
structure Line (room : Nat) where
  text : List UInt8
  fits : text.length ≤ room

namespace Line

variable {room : Nat}

def empty (room : Nat) : Line room := ⟨[], Nat.zero_le room⟩

def push (line : Line room) (byte : UInt8) (below : line.text.length < room) : Line room where
  text := line.text ++ [byte]
  fits := by
    rw [List.length_append]
    exact below

/-- `put`. -/
def put (line : Line room) : CString → Line room
  | [] => line
  | byte :: text =>
      if below : line.text.length < room then put (line.push byte below) text else line

end Line

/-- The digits of `value` as `putUnsigned` finds them, the last first, in at
most `count` places. -/
def digits (base : Nat) : Nat → Nat → List Nat
  | 0, _ => []
  | count + 1, value =>
      value % base :: if value / base = 0 then [] else digits base count (value / base)

/-- The runtime's digit. -/
def digitByte (digit : Nat) : UInt8 := UInt8.ofNat (if digit < 10 then 48 + digit else 87 + digit)

namespace Line

variable {room : Nat}

/-- `putUnsigned`; `digits[24]` is filled and then read from its end. -/
def putUnsigned (line : Line room) (value base : Nat) : Line room :=
  line.put ((digits base 24 value).reverse.map digitByte)

def putHex (line : Line room) (value : Nat) : Line room :=
  (line.put (ascii "0x")).putUnsigned value 16

def finish (line : Line room) : List UInt8 := line.text ++ [10]

/-- What does not fit is left out. -/
theorem put_text (line : Line room) (text : CString) :
    (line.put text).text = line.text ++ text.take (room - line.text.length) := by
  induction text generalizing line with
  | nil => simp [put]
  | cons byte text inductionHypothesis =>
      unfold put
      split_ifs with below
      · obtain ⟨more, eq⟩ : ∃ more, room - line.text.length = more + 1 :=
          ⟨room - line.text.length - 1, by omega⟩
        rw [inductionHypothesis, eq, List.take_succ_cons]
        unfold push
        dsimp only
        rw [List.length_append, List.append_assoc, List.length_singleton,
          show room - (line.text.length + 1) = more by omega]
        rfl
      · rw [show room - line.text.length = 0 by omega, List.take_zero, List.append_nil]

theorem ext_text {line line' : Line room} (same : line.text = line'.text) : line = line' := by
  cases line
  cases line'
  obtain rfl := same
  rfl

@[simp] theorem put_put (line : Line room) (text rest : CString) :
    (line.put text).put rest = line.put (text ++ rest) := by
  refine ext_text ?_
  rw [put_text, put_text, put_text, List.take_append, List.append_assoc, List.length_append,
    List.length_take]
  congr 2
  have := line.fits
  by_cases long : text.length ≤ room - line.text.length
  · rw [Nat.min_eq_right long]
    congr 1
    omega
  · rw [Nat.min_eq_left (by omega)]
    congr 1
    omega

theorem empty_put_finish (text : CString) :
    ((empty room).put text).finish = text.take room ++ [10] := by
  unfold finish
  rw [put_text]
  rfl

end Line

/-- A number as `putUnsigned` writes it. -/
def numeral (value base : Nat) : List UInt8 := (digits base 24 value).reverse.map digitByte

@[simp] theorem Line.putUnsigned_eq {room : Nat} (line : Line room) (value base : Nat) :
    line.putUnsigned value base = line.put (numeral value base) := rfl

@[simp] theorem Line.putHex_eq {room : Nat} (line : Line room) (value : Nat) :
    line.putHex value = line.put (ascii "0x" ++ numeral value 16) := by
  unfold putHex
  rw [Line.putUnsigned_eq, Line.put_put]

theorem digits_lt {base : Nat} (positive : 0 < base) {count value d : Nat}
    (mem : d ∈ digits base count value) : d < base := by
  induction count generalizing value with
  | zero => simp [digits] at mem
  | succ count inductionHypothesis =>
      unfold digits at mem
      rcases List.mem_cons.mp mem with rfl | rest
      · exact Nat.mod_lt _ positive
      · split_ifs at rest with last
        · simp at rest
        · exact inductionHypothesis rest

/-- Enough places hold every digit. -/
theorem digits_value {base : Nat} {count value : Nat} (fits : value < base ^ count) :
    (digits base count value).foldr (fun d n => base * n + d) 0 = value := by
  induction count generalizing value with
  | zero =>
      rw [Nat.pow_zero] at fits
      simp [digits]
      omega
  | succ count inductionHypothesis =>
      unfold digits
      rw [List.foldr_cons]
      split_ifs with last
      · have split := Nat.div_add_mod value base
        rw [last] at split
        simpa using split
      · rw [inductionHypothesis]
        · exact Nat.div_add_mod value base
        · rw [Nat.pow_succ] at fits
          exact Nat.div_lt_of_lt_mul (by rwa [Nat.mul_comm])

theorem numeral_ne_nil (value base : Nat) : numeral value base ≠ [] := by
  simp [numeral, digits]

/-! ## What the runtime says -/

/-- `__weavec_rt_site`, its file's name read through the record. -/
structure Site where
  file : Option CString
  line : UInt32
  column : UInt16
  flags : UInt16
  deriving DecidableEq, Repr

namespace Site

def write (site : Option Site) : Bool := site.any fun site => site.flags &&& 1 != 0
def report (site : Option Site) : Bool := site.any fun site => site.flags &&& 2 != 0
def proven (site : Option Site) : Bool := site.any fun site => site.flags &&& 4 != 0
def nameOf (site : Option Site) : Option CString := site.bind Site.file
def lineOf (site : Option Site) : Nat := (site.map fun site => site.line.toNat).getD 0
def columnOf (site : Option Site) : Nat := (site.map fun site => site.column.toNat).getD 0

end Site

/-- `describeRange`. -/
def describeRange (room address lo hi : Nat) (noun : String) : List UInt8 :=
  let line := (Line.empty room).put (ascii "weavec: ")
  let line := line.putHex address
  let line :=
    if hi ≤ address then
      ((line.put (ascii " is ")).putUnsigned (address - hi) 10).put (ascii " bytes after the ")
    else if address < lo then
      ((line.put (ascii " is ")).putUnsigned (lo - address) 10).put (ascii " bytes before the ")
    else
      ((line.put (ascii " is ")).putUnsigned (address - lo) 10).put (ascii " bytes inside the ")
  let line := line.putUnsigned ((hi + (2 ^ 64 - lo)) % 2 ^ 64) 10
  let line := ((line.put (ascii "-byte ")).put (ascii noun)).put (ascii " at ")
  (line.putHex lo).finish

/-- `describeHeap`'s line of a released block. -/
def describeReleased (room address base : Nat) : List UInt8 :=
  let line := (Line.empty room).put (ascii "weavec: ")
  let line := (line.putHex address).put (ascii " is inside a released heap block at ")
  (line.putHex base).finish

/-- The second line of a use after return. -/
def describeReturned (room address : Nat) : List UInt8 :=
  let line := (Line.empty room).put (ascii "weavec: ")
  ((line.putHex address).put (ascii " is in a frame that returned")).finish

/-- The second line of a color mismatch. -/
def describeJump (room address root : Nat) : List UInt8 :=
  let line := (Line.empty room).put (ascii "weavec: ")
  let line := (line.putHex address).put (ascii " is ")
  let line := line.putUnsigned (if root ≤ address then address - root else root - address) 10
  let line := line.put
    (ascii (if root ≤ address then " bytes after its base " else " bytes before its base "))
  ((line.putHex root).put (ascii ", in another object")).finish

/-- `reportLine`'s text. -/
def reportLine (room : Nat) (kind : String) (address width : Nat) (site : Option Site) :
    List UInt8 :=
  let out := (Line.empty room).put (ascii "weavec: ")
  let out := if Site.proven site then out.put (ascii "weavec.proven: ") else out
  let out := (out.put (ascii kind)).put (ascii " at ")
  let out :=
    match Site.nameOf site with
    | some file =>
        let out := ((out.put file).put (ascii ":")).putUnsigned (Site.lineOf site) 10
        (out.put (ascii ":")).putUnsigned (Site.columnOf site) 10
    | none => out.put (ascii "<unknown>")
  let out := out.put (ascii ": ")
  let out :=
    if kind = "index-out-of-bounds" then
      let out := out.put (ascii "index ")
      if 2 ^ 63 ≤ address then (out.put (ascii "-")).putUnsigned (2 ^ 64 - address) 10
      else out.putUnsigned address 10
    else if width = 0 then (out.put (ascii "access at ")).putHex address
    else
      let out := out.put (ascii (if Site.write site then "write" else "read"))
      let out := (out.put (ascii " of ")).putUnsigned width 10
      (out.put (ascii " bytes at ")).putHex address
  out.finish

/-- `__weavec_rt_fatal`'s line. -/
def fatalLine (room : Nat) (what : String) (p : Nat) (why : String) : List UInt8 :=
  let line := ((Line.empty room).put (ascii "weavec: ")).put (ascii what)
  let line := ((line.put (ascii " of ")).putHex p).put (ascii ": ")
  (line.put (ascii why)).finish

/-- What `onFault` says of an access that may have written. -/
def faultVerb : Option Bool → String
  | some true => ": write at "
  | some false => ": read at "
  | none => ": access at "

/-- `onFault`'s line. -/
def faultLine (room pc address : Nat) (write : Option Bool) : List UInt8 :=
  let line := ((Line.empty room).put (ascii "weavec: memory-fault at pc ")).putHex pc
  ((line.put (ascii (faultVerb write))).putHex address).finish

/-- One line, as one `write` puts it out. -/
inductive Emission where
  | report (kind : String) (address width : Nat) (site : Option Site)
  | range (address lo hi : Nat) (noun : String)
  | released (address base : Nat)
  | returned (address : Nat)
  | jump (address root : Nat)
  | fatal (p : Nat) (why : String)
  | fault (pc address : Nat) (write : Option Bool)
  deriving DecidableEq, Repr

/-- Its bytes: a report's buffer has 1024 bytes, any other 256. -/
def Emission.text : Emission → List UInt8
  | .report kind address width site => reportLine 1023 kind address width site
  | .range address lo hi noun => describeRange 255 address lo hi noun
  | .released address base => describeReleased 255 address base
  | .returned address => describeReturned 255 address
  | .jump address root => describeJump 255 address root
  | .fatal p why => fatalLine 255 "invalid release" p why
  | .fault pc address write => faultLine 255 pc address write

/-! ## Their parts -/

/-- A report up to what was done. -/
def reportHead (kind : String) (site : Option Site) : List UInt8 :=
  ascii "weavec: " ++ ((if Site.proven site then ascii "weavec.proven: " else []) ++
    (ascii kind ++ (ascii " at " ++
      ((match Site.nameOf site with
        | some file =>
            file ++ (ascii ":" ++ (numeral (Site.lineOf site) 10 ++
              (ascii ":" ++ numeral (Site.columnOf site) 10)))
        | none => ascii "<unknown>") ++ ascii ": "))))

/-- What was done. -/
def reportTail (kind : String) (address width : Nat) (site : Option Site) : List UInt8 :=
  if kind = "index-out-of-bounds" then
    ascii "index " ++
      (if 2 ^ 63 ≤ address then ascii "-" ++ numeral (2 ^ 64 - address) 10
        else numeral address 10)
  else if width = 0 then ascii "access at " ++ (ascii "0x" ++ numeral address 16)
  else
    ascii (if Site.write site then "write" else "read") ++ (ascii " of " ++ (numeral width 10 ++
      (ascii " bytes at " ++ (ascii "0x" ++ numeral address 16))))

theorem reportLine_eq (room : Nat) (kind : String) (address width : Nat) (site : Option Site) :
    reportLine room kind address width site =
      (reportHead kind site ++ reportTail kind address width site).take room ++ [10] := by
  have proven (line : Line room) :
      (if Site.proven site then line.put (ascii "weavec.proven: ") else line) =
        line.put (if Site.proven site then ascii "weavec.proven: " else []) := by
    split_ifs <;> rfl
  rw [← Line.empty_put_finish]
  unfold reportLine reportHead reportTail
  dsimp only
  rw [proven]
  cases Site.nameOf site with
  | none =>
      split_ifs <;> simp only [Line.putUnsigned_eq, Line.putHex_eq, Line.put_put, List.append_assoc]
  | some file =>
      split_ifs <;> simp only [Line.putUnsigned_eq, Line.putHex_eq, Line.put_put, List.append_assoc]

/-- The bytes the line has room for. -/
def Emission.room : Emission → Nat
  | .report .. => 1023
  | _ => 255

/-- The line as it would be with room for all of it. -/
def Emission.body : Emission → List UInt8
  | .report kind address width site =>
      reportHead kind site ++ reportTail kind address width site
  | .range address lo hi noun =>
      ascii "weavec: " ++ (ascii "0x" ++ (numeral address 16 ++ (ascii " is " ++
        (numeral (if hi ≤ address then address - hi else if address < lo then lo - address
            else address - lo) 10 ++
          (ascii (if hi ≤ address then " bytes after the " else if address < lo then
              " bytes before the " else " bytes inside the ") ++
            (numeral ((hi + (2 ^ 64 - lo)) % 2 ^ 64) 10 ++ (ascii "-byte " ++ (ascii noun ++
              (ascii " at " ++ (ascii "0x" ++ numeral lo 16))))))))))
  | .released address base =>
      ascii "weavec: " ++ (ascii "0x" ++ (numeral address 16 ++
        (ascii " is inside a released heap block at " ++ (ascii "0x" ++ numeral base 16))))
  | .returned address =>
      ascii "weavec: " ++ (ascii "0x" ++ (numeral address 16 ++
        ascii " is in a frame that returned"))
  | .jump address root =>
      ascii "weavec: " ++ (ascii "0x" ++ (numeral address 16 ++ (ascii " is " ++
        (numeral (if root ≤ address then address - root else root - address) 10 ++
          (ascii (if root ≤ address then " bytes after its base " else " bytes before its base ") ++
            (ascii "0x" ++ (numeral root 16 ++ ascii ", in another object")))))))
  | .fatal p why =>
      ascii "weavec: " ++ (ascii "invalid release" ++ (ascii " of " ++ (ascii "0x" ++
        (numeral p 16 ++ (ascii ": " ++ ascii why)))))
  | .fault pc address write =>
      ascii "weavec: memory-fault at pc " ++ (ascii "0x" ++ (numeral pc 16 ++
        (ascii (faultVerb write) ++ (ascii "0x" ++ numeral address 16))))

/-- Every line is its body, cut to its room, and a newline. -/
theorem Emission.text_eq (e : Emission) : e.text = e.body.take e.room ++ [10] := by
  cases e with
  | report kind address width site => exact reportLine_eq 1023 kind address width site
  | range address lo hi noun =>
      unfold text body room describeRange
      rw [← Line.empty_put_finish]
      dsimp only
      split_ifs <;> simp only [Line.putUnsigned_eq, Line.putHex_eq, Line.put_put, List.append_assoc]
  | released address base =>
      unfold text body room describeReleased
      rw [← Line.empty_put_finish]
      simp only [Line.putHex_eq, Line.put_put, List.append_assoc]
  | returned address =>
      unfold text body room describeReturned
      rw [← Line.empty_put_finish]
      simp only [Line.putHex_eq, Line.put_put, List.append_assoc]
  | jump address root =>
      unfold text body room describeJump
      rw [← Line.empty_put_finish]
      dsimp only
      split_ifs <;> simp only [Line.putUnsigned_eq, Line.putHex_eq, Line.put_put, List.append_assoc]
  | fatal p why =>
      unfold text body room fatalLine
      rw [← Line.empty_put_finish]
      simp only [Line.putHex_eq, Line.put_put, List.append_assoc]
  | fault pc address write =>
      unfold text body room faultLine
      rw [← Line.empty_put_finish]
      simp only [Line.putHex_eq, Line.put_put, List.append_assoc]

theorem digits_length (base count value : Nat) : (digits base count value).length ≤ count := by
  induction count generalizing value with
  | zero => exact Nat.le_refl 0
  | succ count inductionHypothesis =>
      unfold digits
      rw [List.length_cons]
      split_ifs
      · exact Nat.succ_le_succ (Nat.zero_le count)
      · exact Nat.succ_le_succ (inductionHypothesis _)

theorem numeral_length (value base : Nat) : (numeral value base).length ≤ 24 := by
  unfold numeral
  rw [List.length_map, List.length_reverse]
  exact digits_length base 24 value

/-- The kinds the runtime reports. -/
def kinds : List String :=
  [ReportKind.heapBufferOverflow, .heapUseAfterFree, .stackBufferOverflow,
    .dynamicStackBufferOverflow, .stackUseAfterReturn, .stackUseAfterScope, .useAfterPoison,
    .globalBufferOverflow, .nullDereference, .invalidAccess].map ReportKind.name ++
  ["unterminated-string", "index-out-of-bounds", "intra-object-overflow", "overlapping-copy"]

/-- What the runtime calls the object of a second line. -/
def nouns : List String := ["heap object", "destination"]

/-- Why a release is invalid. -/
def whys : List String :=
  ["the block was already released", "no block is allocated there", "not the start of its block",
    "not the start of a live block", "not a heap block"]

theorem length_append_le {α : Type} {xs ys : List α} {m n : Nat} (left : xs.length ≤ m)
    (right : ys.length ≤ n) : (xs ++ ys).length ≤ m + n := by
  rw [List.length_append]
  exact Nat.add_le_add left right

/-- No line but a report is ever cut. -/
theorem Emission.text_whole {e : Emission} (second : ∀ kind address width site,
      e ≠ .report kind address width site)
    (noun : ∀ address lo hi noun, e = .range address lo hi noun → noun ∈ nouns)
    (why : ∀ p why, e = .fatal p why → why ∈ whys) : e.text = e.body ++ [10] := by
  have whole {n : Nat} (room : e.room = 255) (short : e.body.length ≤ n) (within : n ≤ 255) :
      e.text = e.body ++ [10] := by
    rw [text_eq, room, List.take_of_length_le (short.trans within)]
  have nounLength : ∀ noun ∈ nouns, (ascii noun).length ≤ 11 := by decide +kernel
  have whyLength : ∀ why ∈ whys, (ascii why).length ≤ 30 := by decide +kernel
  have lead : (ascii "weavec: ").length ≤ 8 ∧ (ascii "0x").length ≤ 2 ∧
      (ascii " is ").length ≤ 4 := by decide +kernel
  cases e with
  | report kind address width site => exact absurd rfl (second kind address width site)
  | range address lo hi n =>
      have short := nounLength n (noun _ _ _ _ rfl)
      have verb : (ascii (if hi ≤ address then " bytes after the " else if address < lo then
          " bytes before the " else " bytes inside the ")).length ≤ 18 := by
        split_ifs <;> decide +kernel
      have texts : (ascii "-byte ").length ≤ 6 ∧ (ascii " at ").length ≤ 4 := by decide +kernel
      exact whole rfl (length_append_le lead.1 <| length_append_le lead.2.1 <|
        length_append_le (numeral_length _ _) <| length_append_le lead.2.2 <|
        length_append_le (numeral_length _ _) <| length_append_le verb <|
        length_append_le (numeral_length _ _) <| length_append_le texts.1 <|
        length_append_le short <| length_append_le texts.2 <|
        length_append_le lead.2.1 (numeral_length _ _)) (by decide)
  | released address base =>
      have texts : (ascii " is inside a released heap block at ").length ≤ 36 := by decide +kernel
      exact whole rfl (length_append_le lead.1 <| length_append_le lead.2.1 <|
        length_append_le (numeral_length _ _) <| length_append_le texts <|
        length_append_le lead.2.1 (numeral_length _ _)) (by decide)
  | returned address =>
      have texts : (ascii " is in a frame that returned").length ≤ 28 := by decide +kernel
      exact whole rfl (length_append_le lead.1 <| length_append_le lead.2.1 <|
        length_append_le (numeral_length _ _) texts) (by decide)
  | jump address root =>
      have verb : (ascii (if root ≤ address then " bytes after its base " else
          " bytes before its base ")).length ≤ 23 := by
        split_ifs <;> decide +kernel
      have texts : (ascii ", in another object").length ≤ 19 := by decide +kernel
      exact whole rfl (length_append_le lead.1 <| length_append_le lead.2.1 <|
        length_append_le (numeral_length _ _) <| length_append_le lead.2.2 <|
        length_append_le (numeral_length _ _) <| length_append_le verb <|
        length_append_le lead.2.1 <| length_append_le (numeral_length _ _) texts) (by decide)
  | fatal p y =>
      have short := whyLength y (why _ _ rfl)
      have texts : (ascii "invalid release").length ≤ 15 ∧ (ascii " of ").length ≤ 4 ∧
          (ascii ": ").length ≤ 2 := by decide +kernel
      exact whole rfl (length_append_le lead.1 <| length_append_le texts.1 <|
        length_append_le texts.2.1 <| length_append_le lead.2.1 <|
        length_append_le (numeral_length _ _) <| length_append_le texts.2.2 short) (by decide)
  | fault pc address write =>
      have verb : (ascii (faultVerb write)).length ≤ 12 := by
        rcases write with _ | _ | _ <;> decide +kernel
      have texts : (ascii "weavec: memory-fault at pc ").length ≤ 27 := by decide +kernel
      exact whole rfl (length_append_le texts <| length_append_le lead.2.1 <|
        length_append_le (numeral_length _ _) <| length_append_le verb <|
        length_append_le lead.2.1 (numeral_length _ _)) (by decide)

/-! ## The calls -/

/-- What a call reads besides its arguments: whether a report may end the
program although it is in report mode, what `firstReport` answers, and what
the allocator says of an address. -/
structure Failing where
  shouldAbort : Bool
  firstReport : SiteHash → Bool
  heapObjectAt : Nat → HeapObject

namespace Failing

variable (f : Failing)

/-- Whether `reportLine` puts its line out. -/
def reports (kind : String) (site : Option Site) : Bool :=
  let report := Site.report site && !f.shouldAbort
  !(report && !f.firstReport
    (siteHash (some (ascii kind)) (Site.nameOf site) (UInt32.ofNat (Site.lineOf site))
      (UInt32.ofNat (Site.columnOf site))))

/-- `describeHeap`. -/
def describeHeap (address : Nat) : Option Emission :=
  let object := f.heapObjectAt address
  if ¬ object.found then none
  else if ¬ object.live then some (.released address object.base)
  else if (object.base + object.size) % 2 ^ 64 ≤ address then
    some (.range address object.base ((object.base + object.size) % 2 ^ 64) "heap object")
  else none

/-- `weavecRtFail`. -/
def fail (kind : String) (address width : Nat) (site : Option Site) : List Emission :=
  if ¬ f.reports kind site then []
  else
    .report kind address width site ::
      if "heap-".toList <+: kind.toList then (f.describeHeap address).toList
      else if kind = "stack-use-after-return" then [.returned address]
      else []

/-- `weavecRtFailObject`. -/
def failObject (kind : String) (address width lo hi : Nat) (site : Option Site) : List Emission :=
  if ¬ f.reports kind site then []
  else [.report kind address width site, .range address lo hi "destination"]

/-- `weavecRtFailJump`. -/
def failJump (kind : String) (address width root : Nat) (site : Option Site) : List Emission :=
  if ¬ f.reports kind site then []
  else [.report kind address width site, .jump address root]

/-- `onFault`; a signal that was `sent` faulted nothing. -/
def onFault (sent : Bool) (pc address : Nat) (write : Option Bool) : List Emission :=
  if sent then [] else .fault pc address write :: (f.describeHeap address).toList

end Failing

/-- A failed check's call of the runtime. -/
inductive FailCall where
  | fail
  | object (lo hi : Nat)
  | jump (root : Nat)
  deriving DecidableEq, Repr

/-- The lines it puts out, in order. -/
def FailCall.emissions (call : FailCall) (f : Failing) (kind : String) (address width : Nat)
    (site : Option Site) : List Emission :=
  match call with
  | .fail => f.fail kind address width site
  | .object lo hi => f.failObject kind address width lo hi site
  | .jump root => f.failJump kind address width root site

/-- A line that says more of the report before it. -/
def Emission.Second : Emission → Prop
  | .range _ _ _ noun => noun ∈ nouns
  | .released _ _ | .returned _ | .jump _ _ => True
  | .report .. | .fatal .. | .fault .. => False

theorem Failing.second_of_describeHeap {f : Failing} {address : Nat} {e : Emission}
    (found : f.describeHeap address = some e) : e.Second := by
  unfold describeHeap at found
  dsimp only at found
  split_ifs at found
  · obtain rfl := Option.some.inj found
    change "heap object" ∈ nouns
    decide
  · obtain rfl := Option.some.inj found
    trivial

/-- A call puts out one report, and second lines. -/
theorem FailCall.emissions_eq (call : FailCall) (f : Failing) (kind : String) (address width : Nat)
    (site : Option Site) : ∃ second, (∀ e ∈ second, e.Second) ∧
      call.emissions f kind address width site =
        if f.reports kind site then .report kind address width site :: second else [] := by
  have split (second : List Emission) :
      (if ¬ f.reports kind site then [] else .report kind address width site :: second) =
        if f.reports kind site then .report kind address width site :: second else [] := by
    rw [ite_not]
  cases call with
  | fail =>
      refine ⟨_, fun e mem => ?_, split _⟩
      split_ifs at mem
      · cases found : f.describeHeap address with
        | none =>
            rw [found] at mem
            cases mem
        | some e' =>
            rw [found] at mem
            obtain rfl := List.mem_singleton.mp mem
            exact f.second_of_describeHeap found
      · obtain rfl := List.mem_singleton.mp mem
        trivial
      · cases mem
  | object lo hi =>
      refine ⟨_, fun e mem => ?_, split _⟩
      obtain rfl := List.mem_singleton.mp mem
      change "destination" ∈ nouns
      decide
  | jump root =>
      refine ⟨_, fun e mem => ?_, split _⟩
      obtain rfl := List.mem_singleton.mp mem
      trivial

end WeaveC.Runtime
