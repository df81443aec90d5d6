import LibConfig.Setting
import LibConfig.Tree
import LibConfig.Copy
import LibConfig.CopySpec
import LibConfig.CopyRefine
import LibConfig.WellFormed
import LibConfig.CopyCorrect
import LibConfig.CopyRuns
import LibConfig.Invariants
import LibConfig.CopyFuel
import LibConfig.CopyFrame
import LibConfig.Util.ParseNum
import LibConfig.Util.ParseInteger
import LibConfig.Util.FormatBin
import LibConfig.Util.FormatDouble
import LibConfig.Util.Clzl
import LibConfig.Util.Alloc
