import DedupLzw.FuelLoop
import DedupLzw.WelchLoss
import DedupLzw.BitField
import DedupLzw.Lzw
import DedupLzw.Decoder
import DedupLzw.CodeStream
import DedupLzw.OutputArray
import DedupLzw.DecompressRun
import DedupLzw.LzwRun
import DedupLzw.ChunkCodec
import DedupLzw.App
import DedupLzw.Cuts
import DedupLzw.Numbering
import DedupLzw.Framing
import DedupLzw.Capacity
import DedupLzw.StaleBytes
import DedupLzw.EndToEnd
import DedupLzw.Delivery
import DedupLzw.Window
import DedupLzw.Expansion
import DedupLzw.Sha256
import DedupLzw.Digest
import DedupLzw.LostCodes
import DedupLzw.Dictionary
import DedupLzw.AnyFile
import DedupLzw.Failures
import DedupLzw.LzwMemory
import DedupLzw.System
import DedupLzw.Accounting
import DedupLzw.Edits
import DedupLzw.Ratio
