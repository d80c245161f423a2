import Cs162.Proofs.KvStoreConcurrent
import Cs162.Proofs.FollowerLog
import Cs162.Proofs.Recovery
import Cs162.Proofs.MmAllocRuns
import Cs162.Proofs.KvMessage
import Cs162.Proofs.TpcLeader
import Cs162.Proofs.TpcFollower
import Cs162.Proofs.TpcSystem
import Cs162.Proofs.TpcConcurrent
import Cs162.Proofs.TpcSequential
import Cs162.Proofs.TpcLate
import Cs162.Proofs.TpcRing
import Cs162.Proofs.TpcRegister
import Cs162.Proofs.TpcLogIo
import Cs162.Proofs.PendingSlot
import Cs162.Proofs.KvStoreIo
import Cs162.Proofs.TpcGet
import Cs162.Proofs.TpcHandle
import Cs162.Proofs.MmAllocCoalesce
import Cs162.Proofs.MmAllocContract
import Cs162.Proofs.UrlDecode
import Cs162.Proofs.HttpResponse
import Cs162.Proofs.HttpRender
import Cs162.Proofs.KvResponse
import Cs162.Proofs.Wc
import Cs162.Proofs.Parse
import Cs162.Proofs.Shell
import Cs162.Proofs.HttpServer
import Cs162.Proofs.Wq
import Cs162.Proofs.Sprintf
import Cs162.Proofs.UrlCursors
import Cs162.Proofs.Md5
import Cs162.Proofs.WireSequential
import Cs162.Proofs.SocketServerRuns
import Cs162.Proofs.StartUp
import Cs162.Proofs.WireGet
import Cs162.Proofs.Socket
import Cs162.Proofs.PathSearch
import Cs162.Proofs.FileServer
import Cs162.Proofs.ServeForever
