import LunarPrekernel.Boot.Block
import LunarPrekernel.Boot.Handoff
import LunarPrekernel.Boot.Levels
import LunarPrekernel.Boot.MemoryMap
import LunarPrekernel.Boot.Paging
import LunarPrekernel.Boot.Trampoline
import LunarPrekernel.Elf.KernelInfo
import LunarPrekernel.Pagedb.Contain
import LunarPrekernel.Pmm.Complete
import LunarPrekernel.Pmm.Faithful
import LunarPrekernel.Pmm.Bounds
import LunarPrekernel.Ptm.RiscvFlags
