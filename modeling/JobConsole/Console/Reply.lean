import JobConsole.Console.State

namespace JobConsole.Console

/-- Whether the asker still waits for this very reply. -/
def expects (c : Console) (slot : ReplySlot) : Bool :=
  match c.activity? slot.asker with
  | some a => a.wait.isReply slot.number
  | none => false

def answer (c : Console) (slot : ReplySlot) (line : String) : Console :=
  if c.expects slot then (c.setWait slot.asker (.replied line)).wake slot.asker
  else c.log .askerGone

def hangUp (c : Console) (slot : ReplySlot) : Console :=
  if c.expects slot then (c.setWait slot.asker .hungUp).wake slot.asker else c

def hangUpOn (c : Console) : Message → Console
  | .prompt _ slot => c.hangUp slot
  | _ => c

def discard (c : Console) : Console :=
  c.mailbox.items.foldl (fun c m => (c.record (.discarded m)).hangUpOn m)
    { c with mailbox := c.mailbox.drain }

end JobConsole.Console
