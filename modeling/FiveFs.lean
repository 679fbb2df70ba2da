import FiveFs.CrashSafety
import FiveFs.Census
import FiveFs.Header
import FiveFs.Shortage
import FiveFs.Outage
import FiveFs.Shrink
import FiveFs.Reading
import FiveFs.Rewind
import FiveFs.Lengths
import FiveFs.Parted
import FiveFs.Leftover
import FiveFs.Straddle
import FiveFs.Records
import FiveFs.Capacity
import FiveFs.Stride
import FiveFs.RoundTrip
import FiveFs.Entries
import FiveFs.Backup
import FiveFs.Naming
import FiveFs.Readdir
import FiveFs.Release
import FiveFs.Shelf
import FiveFs.Housing
import FiveFs.Truncate
