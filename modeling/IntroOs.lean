import IntroOs.HeapClient
import IntroOs.HeapCanonical
import IntroOs.VirtioReads
import IntroOs.Holdings
import IntroOs.ThreadsReclaim
import IntroOs.Mutex
import IntroOs.ThreadsLocks
import IntroOs.ThreadsHeap
import IntroOs.SpinQueueFifo
import IntroOs.ContextRuns
import IntroOs.VirtioIndices
import IntroOs.Fat32Trust
import IntroOs.Fat32Tree
import IntroOs.Fat32Requests
import IntroOs.Fat32Parents
import IntroOs.SemaphoreDestroy
import IntroOs.Memmove
import IntroOs.Console
import IntroOs.HeapConcurrent
import IntroOs.VirtioDmaReads
import IntroOs.BootRuns
import IntroOs.Fat32Program
import IntroOs.FileStack
