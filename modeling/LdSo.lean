import LdSo.Lib.Outcome
import LdSo.Lib.Bytes
import LdSo.Lib.CString
import LdSo.Lib.Blocks
import LdSo.Lib.LinkedList
import LdSo.Lib.Memory
import LdSo.Lib.Memory.Frame
import LdSo.Lib.Memory.Words
import LdSo.Lib.Memory.Table
import LdSo.Lib.Memory.Array
import LdSo.Lib.Memory.Cursor
import LdSo.Lib.Memory.Layers
import LdSo.Lib.X86
import LdSo.Lib.X86.Stack
import LdSo.Libc.String
import LdSo.Libc.Compare
import LdSo.Lib.Runs
import LdSo.Lib.Simulation
import LdSo.Libc.Tokens
import LdSo.Libc.Printf
import LdSo.Libc.Printf.Number
import LdSo.Libc.Printf.Value
import LdSo.Libc.Printf.Format
import LdSo.Libc.Printf.Directive
import LdSo.Libc.Printf.Vsprintf
import LdSo.Libc.Printf.Output
import LdSo.Elf
import LdSo.Elf.Image
import LdSo.Elf.Sections
import LdSo.System
import LdSo.Libc.Heap
import LdSo.Lib.Ring
import LdSo.Lib.Trie
import LdSo.Lib.Trie.BestFit
import LdSo.Libc.Malloc.Index
import LdSo.Libc.Malloc
import LdSo.Libc.Malloc.Tree
import LdSo.Libc.Malloc.Insert
import LdSo.Libc.Malloc.Bins
import LdSo.Libc.Malloc.Search
import LdSo.Libc.Malloc.Unlink
import LdSo.Libc.Malloc.Operations
import LdSo.ElfManipulation
import LdSo.ElfManipulation.Names
import LdSo.ElfManipulation.Select
import LdSo.ElfManipulation.Kernel
import LdSo.LinkMap
import LdSo.Lib.Worklist
import LdSo.Dependency
import LdSo.Dependency.Process
import LdSo.Dependency.Environment
import LdSo.Dependency.Strings
import LdSo.Dependency.Iteration
import LdSo.Dependency.Table
import LdSo.Dependency.Preload
import LdSo.Dependency.Effects
import LdSo.Dependency.Distinct
import LdSo.Dependency.Search
import LdSo.Dependency.Concatenate
import LdSo.Loader
import LdSo.Loader.Program
import LdSo.Loader.Image
import LdSo.Loader.Build
import LdSo.Loader.Separation
import LdSo.Loader.Reserve
import LdSo.Loader.Trace
import LdSo.Loader.Chain
import LdSo.Loader.Listed
import LdSo.Loader.Protection
import LdSo.Loader.Contents
import LdSo.SymbolResolution
import LdSo.Relocations
import LdSo.Lib.Run
import LdSo.Lib.Orbit
import LdSo.Libdl
import LdSo.ElfManipulation.Bounds
import LdSo.Libdl.Close
import LdSo.Libdl.Dlsym
import LdSo.Libdl.Session
import LdSo.Libdl.List
import LdSo.Libdl.Placement
import LdSo.Relocations.Frame
import LdSo.Libdl.Binding
import LdSo.Libdl.Scope
import LdSo.Libdl.Dladdr
import LdSo.Object
import LdSo.GnuHash
import LdSo.SymbolResolution.Gnu
import LdSo.SysvHash
import LdSo.SymbolResolution.Sysv
import LdSo.SymbolResolution.Lookup
import LdSo.SymbolResolution.Scope
import LdSo.SymbolResolution.Reach
import LdSo.SymbolResolution.FirstDefinition
import LdSo.SymbolResolution.ElfHash
import LdSo.SymbolResolution.Absent
import LdSo.SymbolResolution.Walk
import LdSo.Relocations.Lookup
import LdSo.Relocations.Relative
import LdSo.Relocations.Passes
import LdSo.Relocations.Lazy
import LdSo.Relocations.Library
import LdSo.Relocations.Slots
import LdSo.Relocations.Writes
import LdSo.Relocations.Trampoline
import LdSo.Main
import LdSo.Main.Debug
import LdSo.Main.Startup
import LdSo.Main.Options
import LdSo.Main.Options.Text
import LdSo.Main.Options.Output
import LdSo.Main.Options.Listing
import LdSo.Main.Binding
import LdSo.Main.Relocated
import LdSo.Main.Distinct
import LdSo.Main.Image
import LdSo.Readelf
import LdSo.Readelf.Layout
import LdSo.Readelf.Search
