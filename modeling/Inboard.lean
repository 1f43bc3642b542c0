import Inboard.Loop
import Inboard.Machine
import Inboard.Lz4Format
import Inboard.Lz4Decompress
import Inboard.Lz4Compress
import Inboard.Store
import Inboard.SwapComp
import Inboard.SwapStore
import Inboard.SwapRun
import Inboard.Epat
import Inboard.EpatUnlock
import Inboard.EpatData
import Inboard.EpatSession
import Inboard.EpatRegister
import Inboard.EpatBusy
import Inboard.Ata
import Inboard.BiosWindow
import Inboard.XtTransport
import Inboard.XtMiniport
import Inboard.XtSectors
import Inboard.XtCommit
import Inboard.XtComplete
import Inboard.XtBounds
import Inboard.RamTest
import Inboard.ShadowRam
import Inboard.ShadowTests
import Inboard.ShadowPages
import Inboard.ShadowWindow
import Inboard.ShadowBios
import Inboard.DdLock
import Inboard.DdDesc
import Inboard.DdBlt
import Inboard.DdEager
import Inboard.DdContent
import Inboard.DdRun
import Inboard.EpatPackets
import Inboard.D3dStamps
import Inboard.D3dShelves
import Inboard.D3dReplay
import Inboard.DdLend
import Inboard.DdLendRun
import Inboard.OffScreen
import Inboard.Stacks
import Inboard.OffShelves
import Inboard.OffRun
import Inboard.M8Draw
import Inboard.M8Lines
import Inboard.M8Short
import Inboard.M8Spans
import Inboard.M8Fifo
import Inboard.M8FifoDraw
import Inboard.M8FifoLines
import Inboard.M8FifoRun
import Inboard.EpatReads
import Inboard.Lz4Bounds
import Inboard.Fb16Conv
import Inboard.XtParse
import Inboard.Card
import Inboard.Strip
import Inboard.Fb16Solid
import Inboard.Fb16Send
import Inboard.DdErase
import Inboard.Fb16Lines
import Inboard.Fallback
import Inboard.OutputFallback
import Inboard.Bresenham
import Inboard.D3dCore
import Inboard.D3dFit
import Inboard.D3dFrame
import Inboard.D3dMaskDraw
import Inboard.D3dQueueFits
import Inboard.D2dFast
import Inboard.Enlarge
import Inboard.GcGlyph
import Inboard.Poly3d
import Inboard.PolyFrames
import Inboard.DdPlace
import Inboard.Lz4Sectors
import Inboard.MonoBlt
import Inboard.ProxyBlt
import Inboard.ProxyClear
import Inboard.Cutting
import Inboard.Proxies
import Inboard.ProxyTable
import Inboard.ProxyPieces
import Inboard.ProxyRun
import Inboard.ProxyBlt
import Inboard.ProxyShows
import Inboard.ProxyDrawn
import Inboard.ProxyGdi
import Inboard.ProxyClear
import Inboard.Ls120
import Inboard.Ls120Bridge
import Inboard.Ls120Packet
