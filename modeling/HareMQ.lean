import HareMQ.Theorems.BindingKey
import HareMQ.Theorems.Counters
import HareMQ.Theorems.CreateDir
import HareMQ.Theorems.Damage
import HareMQ.Theorems.Garbage
import HareMQ.Theorems.HandOff
import HareMQ.Theorems.Linear
import HareMQ.Theorems.Orderly
import HareMQ.Theorems.Places
import HareMQ.Theorems.Refused
import HareMQ.Theorems.Rotation
import HareMQ.Theorems.Setup
import HareMQ.Theorems.Shutdown
import HareMQ.Theorems.Torn
import HareMQ.Theorems.Uuid
