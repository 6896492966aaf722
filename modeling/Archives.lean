import Archives.Resea.RefCount
import Archives.Resea.Fastpath
import Archives.Resea.Paging
import Archives.Ftl.PollWait
import Archives.Ftl.HttpChunks
import Archives.Ftl.ChannelPair
import Archives.Kerla.Getcwd
import Archives.Kerla.NoFollow
import Archives.Kerla.Sleeping
import Archives.Kerla.Descriptors
import Archives.Noa.EditAtCursor
import Archives.Ena.Gc
import Archives.Ena.Strings
import Archives.Ena.Unwinding
import Archives.Ftl.PageFaults
import Archives.Ftl.Timers
import Archives.Ftl.VirtQueue
import Archives.Ftl.DeviceTreeReg
import Archives.Ftl.TcpServer
import Archives.Ftl.EventLoop
import Archives.Kerla.RingBuffer
import Archives.Kerla.Getdents
import Archives.Kerla.VmAreas
import Archives.Kerla.PageFault
import Archives.Kerla.DuplicateTable
import Archives.Kerla.Execve
import Archives.Kerla.Mounts
import Archives.Kazari.Requests
import Archives.Kazari.Dragging
import Archives.Noa.Timeline
import Archives.Noa.Clamping
import Archives.Noa.PrioritizedVec
import Archives.Resea.Kmalloc
import Archives.Resea.Discovery
import Archives.Resea.AppMgr
import Archives.Resea.RunQueue
