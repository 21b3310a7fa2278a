import Naarad.Lib.CharArray

/-!
# The message record (`message_queue/message.h`)

The record that `handle_event` builds, that the display queue stores and that travels through the
POSIX queue and the pipes, with the constants its users share.
-/

set_option autoImplicit false

namespace Naarad

def NUM_GROUPS : Nat := 4
def NUM_CONSUMERS_PER_GROUP : Nat := 2
def MAX_RETRIES : Nat := 5

/-! Of `enum MessageType`: the group that `handle_event` names, and the two values that mark control
messages in `op`. -/

def FILE_ACTIVITY_MONITORING : UInt8 := 0
def ACK_MESSAGE : UInt8 := 253
def STOP_MESSAG : UInt8 := 254

structure Message where
  gid : UInt32
  uid : UInt32
  category : UInt8
  op : UInt8
  timestamp : UInt64
  comm : CharArray 16
  file : CharArray 128
  new_file : CharArray 128
  deriving DecidableEq

def Message.zero : Message :=
  ⟨0, 0, 0, 0, 0, .zero 16, .zero 128, .zero 128⟩

end Naarad
