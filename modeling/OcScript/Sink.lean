/-
  This file defines what printed text goes to.

  A program prints to a writer of any type.  Writing and
  flushing may do anything to the writer, and may fail with
  an error that says anything.

  A sink is a writer that keeps the bytes written to it.  It
  may have a capacity, which bounds all bytes ever written,
  and it may fail when it is flushed.

  Key definitions include:
    * `OcScript.SinkError`
    * `OcScript.Writer`
    * `OcScript.Sink`
    * `OcScript.Sink.write`
    * `OcScript.Sink.flush`
    * `OcScript.Sink.textOf`
-/

------------------------------------------------------------
-- Writers
------------------------------------------------------------

namespace OcScript

/- A failure of a writer, known by what it says. -/
structure SinkError where
  message : String
deriving DecidableEq, Repr

/-
  The values of a type can be written to and flushed, and
  show the bytes that they have taken.  To write bytes is
  all that happens until they are passed on, in one piece
  or in several.
-/
class Writer (W : Type) where
  written : W → ByteArray
  write : ByteArray → EStateM SinkError W Unit
  flush : EStateM SinkError W Unit

end OcScript

------------------------------------------------------------
-- Sinks
------------------------------------------------------------

namespace OcScript

namespace SinkError

/- What a sink says when its capacity is reached. -/
def full : SinkError :=
  ⟨"sink full"⟩

/- What a sink says that fails when it is flushed. -/
def notFlushed : SinkError :=
  ⟨"flush failed"⟩

@[simp] theorem notFlushed_ne_full :
    notFlushed ≠ full := by
  decide

end SinkError

/- The bytes written so far and how the sink is limited. -/
structure Sink where
  written : ByteArray
  capacity : Option Nat
  flushes : Bool

namespace Sink

/- A sink that takes everything. -/
def unbounded : Sink :=
  ⟨.empty, none, true⟩

/-
  Write bytes to a sink.  If they do not all fit, those that
  do are kept.
-/
def write
    (bytes : ByteArray) :
    EStateM SinkError Sink Unit :=
  fun sink =>
    match sink.capacity with
    | none =>
        .ok () { sink with written := sink.written ++ bytes }
    | some capacity =>
        let room := capacity - sink.written.size
        if bytes.size ≤ room then
          .ok ()
            { sink with written := sink.written ++ bytes }
        else
          .error .full
            { sink with
              written :=
                sink.written ++ bytes.extract 0 room }

/- Flush a sink. -/
def flush : EStateM SinkError Sink Unit :=
  fun sink =>
    if sink.flushes then
      .ok () sink
    else
      .error .notFlushed sink

instance : Writer Sink where
  written := written
  write := write
  flush := flush

@[simp] theorem written_eq
    (sink : Sink) :
    Writer.written sink = sink.written :=
  rfl

@[simp] theorem write_eq
    (bytes : ByteArray) :
    (Writer.write bytes : EStateM SinkError Sink Unit) =
      write bytes :=
  rfl

@[simp] theorem flush_eq :
    (Writer.flush : EStateM SinkError Sink Unit) = flush :=
  rfl

end Sink

end OcScript

------------------------------------------------------------
-- Text of Bytes
------------------------------------------------------------

namespace OcScript

namespace Sink

/-
  The text of bytes cut from a text.  A character is at most
  four bytes long; one that was cut off at the end is shown
  as a replacement character.
-/
def textOf
    (bytes : ByteArray) :
    String :=
  match String.fromUTF8? bytes with
  | some text => text
  | none =>
      let cut :=
        [1, 2, 3].findSome? fun n =>
          String.fromUTF8? (bytes.extract 0 (bytes.size - n))
      cut.getD "" ++ "\uFFFD"

end Sink

end OcScript
