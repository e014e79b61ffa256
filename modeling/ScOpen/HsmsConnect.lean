import ScOpen.HsmsDelivery

/-!
# Connecting to an HSMS server

A client sends a select request and waits for one message, for as long as timer 6 runs. The alarm
of the timer jumps to the call of `do_the_setsigjump()`, which is over; at its place on the stack
there is the call of `recv_hsmsI()`, so the program goes on behind it as if it had returned 1,
unless the jump aborts the process.
-/

namespace ScOpen

end ScOpen
