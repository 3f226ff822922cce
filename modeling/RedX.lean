import RedX.Boot.BootData
import RedX.Boot.BootLocks
import RedX.Boot.MemoryInit
import RedX.Boot.PoolCollision
import RedX.Bootloader.EfiMain
import RedX.Bootloader.ElfFile
import RedX.Bootloader.KernelImage
import RedX.Core.AccessLog
import RedX.Core.BitArray
import RedX.Core.ByteMemory
import RedX.Core.CountedLoop
import RedX.Core.MachineWord
import RedX.Core.Numeral
import RedX.Core.PartialRun
import RedX.Core.RadixTree
import RedX.Core.RangeWrites
import RedX.Core.RewindQueue
import RedX.Core.TerminatedString
import RedX.Core.WordArray
import RedX.Hid.Mouse
import RedX.Hid.MouseMotion
import RedX.Interrupts.Idt
import RedX.Libs.DecimalString
import RedX.Libs.HexFormat
import RedX.Libs.HexString
import RedX.Libs.PageBitmap
import RedX.Libs.StaticConcat
import RedX.Memory.BitmapBounds
import RedX.Memory.BootBitmap
import RedX.Memory.FreeCounter
import RedX.Memory.FreePages
import RedX.Memory.MemoryMap
import RedX.Memory.OutOfRam
import RedX.Memory.PageAllocation
import RedX.Memory.PageLedger
import RedX.Memory.PageOwnership
import RedX.Memory.PagePass
import RedX.Memory.RangeCalls
import RedX.Memory.ReadMap
import RedX.Memory.ScanOrder
import RedX.Paging.DirEntry
import RedX.Paging.DirectoryBounds
import RedX.Paging.DirectorySize
import RedX.Paging.FullDirectory
import RedX.Paging.KernelRun
import RedX.Paging.MapRun
import RedX.Paging.MapWrites
import RedX.Paging.PTableMan
import RedX.Paging.PagePool
import RedX.Paging.PageTree
import RedX.Paging.SparedBitmap
import RedX.Paging.StaleRoot
import RedX.Paging.Translation
import RedX.Screen.GlyphReads
import RedX.Screen.GlyphRenderers
import RedX.Screen.PixelBounds
import RedX.Screen.PrintRow
import RedX.Screen.TextCursor
import RedX.Screen.TextGrid
import RedX.Screen.TextRenderer
import RedX.Terminal.BufferBounds
import RedX.Terminal.CommandLine
import RedX.Terminal.ExtendedKeys
import RedX.Terminal.InputQueue
import RedX.Terminal.Keyboard
import RedX.Terminal.NewLine
import RedX.Terminal.OutputQueue
import RedX.Terminal.QueueBounds
import RedX.Terminal.Terminal
import RedX.Terminal.TypedCharacters
import RedX.Core.AddressSpace
import RedX.Core.Simulation
import RedX.Paging.PoolMemory
import RedX.Boot.BootPools
import RedX.Core.Layers
import RedX.Screen.Canvas
import RedX.Screen.Drawing
import RedX.Screen.Strokes
import RedX.Screen.Panic
import RedX.Terminal.Delivery
import RedX.Core.RowText
import RedX.Terminal.TypedText
import RedX.Terminal.Render
import RedX.Terminal.MainLoop
import RedX.Core.PortProgram
import RedX.Hid.PortIo
import RedX.Interrupts.Pic
import RedX.Core.Progress
import RedX.Interrupts.KeyboardInterrupt
import RedX.Interrupts.KeysToScreen
import RedX.Terminal.ClearedScreen
