import Sepol.MlsPrint
import Sepol.Lib.TextBuffer

/-!
# Contexts in buffers

`context_to_string` computes the length of the text of a context, allocates a buffer of one character more, and has
the text written to it by `sprintf` and by `mls_sid_to_context`, which do not know how long the buffer is.  Both
follow the computation of the length step by step, so the text fills the buffer exactly, as long as its length is an
`int`.
-/

namespace Sepol

open TextBuffer

/-- The name of a value is missing, the allocation fails, `sprintf` has more characters to print than it can count, or
a character was written behind the buffer. -/
inductive WriteError where
  | noName
  | noMemory
  | overflow
  | overrun
deriving DecidableEq

/-- `*scontextp++ = c`. -/
def writeChar (c : Char) (scontextp : Buffer Char) : Except WriteError (Buffer Char) :=
  (put c scontextp).elim (.error .overrun) .ok

/-- `strcpy` of a name, and the step behind it. -/
def writeName (name : Option CString) (scontextp : Buffer Char) : Except WriteError (Buffer Char) :=
  match name with
  | none => .error .noName
  | some name => (puts '\x00' name scontextp).elim (.error .overrun) .ok

/-- The end of a run of categories. -/
def mlsWriteClose (p : Policydb) (range i : Nat) (scontextp : Buffer Char) : Except WriteError (Buffer Char) :=
  if range > 1 then
    match writeChar (if range > 2 then '.' else ',') scontextp with
    | .error e => .error e
    | .ok scontextp => writeName (p.pCatValToName (i - 1)) scontextp
  else .ok scontextp

/-- The variables of the loop over the categories. -/
structure MlsWriteState where
  scontextp : Buffer Char
  range : Nat
  wroteSep : Bool

/-- The body of the loop over the categories. -/
def mlsWriteCat (p : Policydb) (s : MlsWriteState) (cnode : EbitmapNode) (i : Nat) :
    Except WriteError MlsWriteState :=
  if ebitmapNodeGetBit cnode i then
    if s.range ≠ 0 then .ok { s with range := s.range + 1 }
    else
      match writeChar (if !s.wroteSep then ':' else ',') s.scontextp with
      | .error e => .error e
      | .ok scontextp =>
        (writeName (p.pCatValToName i) scontextp).map fun scontextp => ⟨scontextp, s.range + 1, true⟩
  else (mlsWriteClose p s.range i s.scontextp).map fun scontextp => { s with scontextp := scontextp, range := 0 }

/-- One pass of the loop over the levels. -/
def mlsWriteLevel (p : Policydb) (level : MlsLevel) (scontextp : Buffer Char) : Except WriteError (Buffer Char) :=
  match writeName (p.pSensValToName (level.sens - 1)) scontextp with
  | .error e => .error e
  | .ok scontextp =>
    match (ebitmapForEachBit level.cat).1.foldlM (fun s v => mlsWriteCat p s v.1 v.2) ⟨scontextp, 0, false⟩ with
    | .error e => .error e
    | .ok s => mlsWriteClose p s.range (ebitmapForEachBit level.cat).2 s.scontextp

variable {p : Policydb} {n : Nat} {pre : CString} {b : Buffer Char}

/-- The writer is where the text is. -/
structure MlsWriteState.Holds (n : Nat) (pre : CString) (w : MlsWriteState) (s : MlsCatState) : Prop where
  filled : Filled '\x00' n (pre ++ s.scontextp) w.scontextp
  range : w.range = s.range
  wroteSep : w.wroteSep = s.wroteSep

end Sepol
