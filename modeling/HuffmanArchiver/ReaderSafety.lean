import HuffmanArchiver.PrefixDecoding
import HuffmanArchiver.BitRequests

/-! `code_reader` on codes that need not be a prefix code: they may overlap or repeat, and their `data` is
arbitrary. A run is followed link by link; the level of a table bounds the steps of a call. -/
namespace HuffmanArchiver.ReaderSafety
open Machine Codes CodeWords DecodeTables DecodeTree FastIo BitReading BitRequests CodeIo Decoding PrefixDecoding
open Library.BitString

/-- The head of the loop of `read_next`: the table that `cur` points to and the links followed so far. -/
structure Point (bits : ℕ) where
  cur : ℕ
  steps : ℕ
  reader : CodeReader bits

/-- The points of all runs. A call that emits a byte ends at the head of the loop of the next one. -/
inductive Running {bits : ℕ} (codes : CodeTable) (input : IStream) : Point bits → Prop where
  | create {r : CodeReader bits} (created : CodeReader.create bits codes input = .ok r) :
      Running codes input ⟨0,0,r⟩
  | link {cur steps : ℕ} {r r' : CodeReader bits} {e : DecodeElemT} (before : Running codes input ⟨cur,steps,r⟩)
      (found : cell r.table cur r.buffer.toNat = .ok e) (linked : e.table ≠ 0)
      (advanced : r.advance (UInt8.ofNat bits) = .ok r') : Running codes input ⟨e.table.toNat,steps+1,r'⟩
  | emit {cur steps : ℕ} {r r' : CodeReader bits} {e : DecodeElemT} (before : Running codes input ⟨cur,steps,r⟩)
      (found : cell r.table cur r.buffer.toNat = .ok e) (unlinked : e.table = 0)
        (advanced : r.advance e.len = .ok r') :
      Running codes input ⟨0,0,r'⟩

theorem descendRunning {bits : ℕ} {codes : CodeTable} {input : IStream} {fuel cur steps : ℕ}
    {r : CodeReader bits} {cur' : ℕ}
    {r' : CodeReader bits} (running : Running codes input ⟨cur,steps,r⟩)
    (ran : CodeReader.descendLoop fuel r cur = .ok (cur',r')) :
    ∃ steps' e, Running codes input ⟨cur',steps',r'⟩ ∧ cell r'.table cur' r'.buffer.toNat = .ok e ∧
      e.table = 0 := by
  induction fuel generalizing cur steps r with
  | zero => contradiction
  | succ fuel ih =>
    simp only [CodeReader.descendLoop,bindOk] at ran
    obtain ⟨e,found,ran⟩ := ran
    by_cases linked : e.table = 0
    · rw [if_neg (not_not.mpr linked)] at ran
      cases Except.ok.inj ran
      exact ⟨steps,e,running,found,linked⟩
    · simp only [if_pos linked,bindOk] at ran
      obtain ⟨_,_,next,advanced,ran⟩ := ran
      exact ih (.link running found linked advanced) ran

theorem readNextRunning {bits : ℕ} {codes : CodeTable} {input : IStream} {r r' : CodeReader bits} {b : UInt8}
    (running : Running codes input ⟨0,0,r⟩) (ran : r.readNext .unlimitedNesting = .ok (b,r')) :
    Running codes input ⟨0,0,r'⟩ := by
  simp only [CodeReader.readNext,CodeReader.descend,bindOk] at ran
  obtain ⟨⟨cur,next⟩,descended,e,found,last,advanced,ran⟩ := ran
  obtain ⟨steps,e',running',found',unlinked⟩ := descendRunning running descended
  cases Except.ok.inj (found.symm.trans found')
  cases Except.ok.inj ran
  exact .emit running' found unlinked advanced

theorem readManyRunning {bits : ℕ} {codes : CodeTable} {input : IStream} {count : ℕ}
    {r r' : CodeReader bits} {bs : List UInt8}
    (running : Running codes input ⟨0,0,r⟩) (ran : readMany .unlimitedNesting count r = .ok (bs,r')) :
    Running codes input ⟨0,0,r'⟩ := by
  induction count generalizing r bs with
  | zero =>
    cases Except.ok.inj ran
    exact running
  | succ count ih =>
    simp only [readMany,bindOk] at ran
    obtain ⟨⟨b,next⟩,read,⟨rest,last⟩,onward,ran⟩ := ran
    cases Except.ok.inj ran
    exact ih (readNextRunning running read) onward

def maxSteps (bits : ℕ) : ℕ := (64+bits-1)/bits-1

structure Safe {bits : ℕ} (p : Point bits) (e : DecodeElemT) : Prop where
  buffer : p.reader.buffer.toNat < 2^bits
  steps : p.steps ≤ maxSteps bits
  found : cell p.reader.table p.cur p.reader.buffer.toNat = .ok e
  len : e.len.toNat ≤ bits
  link : e.table ≠ 0 → p.cur < e.table.toNat ∧ e.table.toNat < p.reader.table.size ∧ p.steps < maxSteps bits ∧
    Sound p.reader.reader (UInt8.ofNat bits) ∧ ∃ r, p.reader.advance (UInt8.ofNat bits) = .ok r
  leaf : e.table = 0 → Sound p.reader.reader e.len ∧ ∃ r, p.reader.advance e.len = .ok r

section Runs
variable {bits : ℕ} {codes : CodeTable} {input : IStream} {addr : ℕ → Address} {table : DecodeTable bits}

structure Follows (data : Bytes) (addr : ℕ → Address) (table : DecodeTable bits) (p : Point bits) : Prop where
  same : p.reader.table = table
  inside : p.cur < table.size
  level : (addr p.cur).1 = p.steps
  here : ∃ pos, At data pos p.reader

theorem levelBound (pos : 0 < bits) (fits : ∀ b, (codes b).len.toNat ≤ 64)
    (nested : Nested codes (Coded codes) addr table) {t : ℕ}
    (ht : t < table.size) : (addr t).1 ≤ maxSteps bits := by
  by_cases root : t = 0
  · rw [root,nested.root]
    exact Nat.zero_le _
  · obtain ⟨b,_,passes⟩ := nested.origin t (Nat.pos_of_ne_zero root) ht
    have above := passes.above
    have le := fits b
    have deep : (addr t).1+1 ≤ (64+bits-1)/bits := by
      rw [Nat.le_div_iff_mul_le pos,Nat.succ_mul,Nat.mul_comm]
      omega
    exact Nat.le_sub_one_of_lt deep

theorem readSound (narrow : bits ≤ 9) {data : Bytes} {p : ℕ} {r : CodeReader bits} (here : At data p r) {n : UInt8}
    (le : n.toNat ≤ bits) : Sound r.reader n := by
  obtain ⟨base,reads,_⟩ := here.source
  exact soundOf (.inr ⟨base,reads⟩) (by omega)

variable (narrow : bits ≤ 9) (nested : Nested codes (Coded codes) addr table)
include narrow nested

theorem followsSafe (pos : 0 < bits) (fits : ∀ b, (codes b).len.toNat ≤ 64) {data : Bytes} {p : Point bits}
    (follows : Follows data addr table p) : ∃ e, Safe p e := by
  obtain ⟨at_pos,here⟩ := follows.here
  have below := bufferLt here
  have same := follows.same
  obtain ⟨e,found⟩ := cellExists follows.inside below
  have len := nested.lens _ _ e found
  refine ⟨e,below,?_,by rw [same]; exact found,len,fun linked => ?_,fun _ => ?_⟩
  · rw [← follows.level]
    exact levelBound pos fits nested follows.inside
  · obtain ⟨inside,later,address⟩ := nested.links _ _ e found linked
    have deep := levelBound pos fits nested inside
    rw [address,child,follows.level] at deep
    obtain ⟨r,ran,_⟩ := advanceBlock narrow here
    exact ⟨later,by rw [same]; exact inside,deep,readSound narrow here (widthToNat narrow).le,r,ran⟩
  · obtain ⟨r,ran,_⟩ := advanceSpec narrow here len
    exact ⟨readSound narrow here len,r,ran⟩

theorem runningFollows {r : CodeReader bits} (created : CodeReader.create bits codes input = .ok r)
    (start : At input.rest 0 r)
    (same : r.table = table) {p : Point bits} (running : Running codes input p) :
      Follows input.rest addr table p := by
  induction running with
  | create created' =>
    cases Except.ok.inj (created.symm.trans created')
    exact ⟨same,nested.nonempty,congrArg Prod.fst nested.root,0,start⟩
  | @link cur steps r r' e before found linked advanced ih =>
    obtain ⟨at_pos,here⟩ := ih.here
    obtain ⟨next,advanced',kept,here'⟩ := advanceBlock narrow here
    cases Except.ok.inj (advanced.symm.trans advanced')
    have level := ih.level
    have same := ih.same
    simp only at level same
    rw [same] at found
    obtain ⟨inside,_,address⟩ := nested.links _ _ e found linked
    exact ⟨kept.trans same,inside,by rw [address,child,level],_,here'⟩
  | @emit cur steps r r' e before found unlinked advanced ih =>
    obtain ⟨at_pos,here⟩ := ih.here
    have same := ih.same
    simp only at same
    rw [same] at found
    obtain ⟨next,advanced',kept,here'⟩ := advanceSpec narrow here (n := e.len) (nested.lens _ _ e found)
    cases Except.ok.inj (advanced.symm.trans advanced')
    exact ⟨kept.trans same,nested.nonempty,congrArg Prod.fst nested.root,_,here'⟩

theorem readManyRuns {r : CodeReader bits} {data : Bytes} {p : ℕ} (here : At data p r)
    (same : r.table = table) (count : ℕ) :
    ∃ bs r', readMany .unlimitedNesting count r = .ok (bs,r') := by
  induction count generalizing r p with
  | zero => exact ⟨[],r,rfl⟩
  | succ count ih =>
    obtain ⟨b,next,_,ran,kept,here'⟩ := readNextSpec narrow here (by rw [same]; exact nested)
    obtain ⟨bs,r',ran'⟩ := ih here' (kept.trans same)
    exact ⟨b :: bs,r',by simp only [readMany,ran,ran',okBind]⟩

end Runs

theorem readerSafe {bits : ℕ} (pos : 0 < bits) (narrow : bits ≤ 9) (codes : CodeTable)
    (fits : ∀ b, (codes b).len.toNat ≤ 64)
    (input : IStream) : Sound {input := input} (UInt8.ofNat bits) ∧
      ∃ r, CodeReader.create bits codes input = .ok r ∧ r.table.size < 2^16 ∧
        (∀ t x e, cell r.table t x = .ok e → e.len.toNat ≤ bits ∧
          (e.table ≠ 0 → t < e.table.toNat ∧ e.table.toNat < r.table.size)) ∧
        (∀ count, ∃ bs r', readMany .unlimitedNesting count r = .ok (bs,r') ∧ Running codes input ⟨0,0,r'⟩) ∧
        ∀ p, Running codes input p → p.reader.table = r.table ∧ ∃ e, Safe p e := by
  have width := widthToNat narrow
  obtain ⟨r,addr,created,start,nested,_⟩ := createSpec pos narrow fits input
  obtain ⟨table,_,built,size,_⟩ := buildSpec pos (narrow.trans (by norm_num)) fits
  cases Except.ok.inj (built.symm.trans (createdTable created))
  refine ⟨soundOf (freshReady input _) (by omega),r,created,size,fun t x e found => ?_,fun count =>
    ?_,fun p running => ?_⟩
  · refine ⟨nested.lens t x e found,fun linked => ?_⟩
    obtain ⟨inside,later,_⟩ := nested.links t x e found linked
    exact ⟨later,inside⟩
  · obtain ⟨bs,r',ran⟩ := readManyRuns narrow nested start rfl count
    exact ⟨bs,r',ran,readManyRunning (.create created) ran⟩
  · have follows := runningFollows narrow nested created start rfl running
    exact ⟨follows.same,followsSafe narrow nested pos fits follows⟩

/-- Read bit by bit, the code of 97 ends at a cell that leads on to that of 98. -/
def prefixedCodes : CodeTable := fun b => if b = 97 then ⟨1,0⟩ else if b = 98 then ⟨2,1⟩ else {}

theorem readerSafePrefixedCodes : Sound {input := {data := [64], pos := 0}} (UInt8.ofNat 1) ∧
    ∃ r, CodeReader.create 1 prefixedCodes {data := [64], pos := 0} = .ok r ∧ r.table.size < 2^16 ∧
      (∀ t x e, cell r.table t x = .ok e → e.len.toNat ≤ 1 ∧
        (e.table ≠ 0 → t < e.table.toNat ∧ e.table.toNat < r.table.size)) ∧
      (∀ count, ∃ bs r', readMany .unlimitedNesting count r = .ok (bs,r') ∧
        Running prefixedCodes {data := [64], pos := 0} ⟨0,0,r'⟩) ∧
      ∀ p, Running prefixedCodes {data := [64], pos := 0} p → p.reader.table = r.table ∧ ∃ e, Safe p e :=
  readerSafe (by decide) (by decide) prefixedCodes (by decide +kernel) {data := [64], pos := 0}

end HuffmanArchiver.ReaderSafety
